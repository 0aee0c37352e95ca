import Mathlib.Data.List.TakeWhile
import RowRecipe.Grammar.Scan
import RowRecipe.Proofs.Grammar.Locality

/-!
# Scanning as a judgment

`Scanned s cs ps` says that scanning `cs` from the state `s` ends in a final state with the pieces `ps`.
A step of scanning takes the first terminal that the state offers and that cuts something; what a
terminal can start with decides most of these choices.
-/

namespace RowRecipe.Grammar

/-! ## First characters -/

/-- Whether the terminal may start with `c`. -/
def Terminal.starts : Terminal → Char → Bool
  | opening, c => c == 'p'
  | duration, c | byteSize, c | malformedUnit, c | number, c => c == '-' || Text.isDigit c
  | version, c => Text.isDigit c
  | separator, c => c == ';' || c == '\n'
  | pragmaWord, c => c == '#'
  | comma, c => c == ','
  | equal, c => c == '='
  | closing, c => c == '\x7d'
  | column, c => c == ':'
  | name, c => isNameStart c
  | text, c => c == '\'' || c == '"'
  | versionWord, c => c == 'v'
  | loadWord, c => c == 'l'

variable {c : Char} {cs : List Char}

theorem wordCut?_starts {w : Char} (word : List Char) {r : Cut} (h : wordCut? (w :: word) (c :: cs) = some r) :
    (c == w) = true := by
  unfold wordCut? at h
  split at h
  next hp =>
    rw [List.isPrefixOf_cons_cons, Bool.and_eq_true, beq_iff_eq] at hp
    exact beq_iff_eq.mpr hp.1.symm
  next => cases h

theorem unsignedCut?_starts {r : Cut} (h : unsignedCut? (c :: cs) = some r) : Text.isDigit c = true := by
  rw [← Bool.not_eq_false]
  intro hd
  simp [unsignedCut?, Decimal.spanDigits, hd] at h

theorem numberCut?_starts {r : Cut} (h : numberCut? (c :: cs) = some r) :
    (c == '-' || Text.isDigit c) = true := by
  rw [Bool.or_eq_true, beq_iff_eq]
  by_cases hc : c = '-'
  · exact .inl hc
  · rw [numberCut?] at h
    · exact .inr (unsignedCut?_starts h)
    · simp [hc]

theorem runCut?_starts {first more : Char → Bool} {r : Cut} (h : runCut? first more (c :: cs) = some r) :
    first c = true := by
  simp only [runCut?] at h
  split at h
  next hp => exact hp
  next => cases h

theorem Terminal.starts_of_cut? {t : Terminal} {r : Cut} (h : t.cut? (c :: cs) = some r) :
    t.starts c = true := by
  have quantity {kind : UnitKind} {r : Cut} (h : quantityCut? kind (c :: cs) = some r) :
      (c == '-' || Text.isDigit c) = true := by
    unfold quantityCut? at h
    split at h
    next => cases h
    next n hn => exact numberCut?_starts hn
  cases t with
  | opening =>
    change openingCut? (c :: cs) = some r at h
    unfold openingCut? at h
    split at h
    next => cases h
    next u hu => exact wordCut?_starts "rop".toList hu
  | duration => exact quantity h
  | byteSize => exact quantity h
  | malformedUnit =>
    change malformedCut? (c :: cs) = some r at h
    simp only [malformedCut?] at h
    split at h
    next => cases h
    next n hn => exact numberCut?_starts hn
  | number => exact numberCut?_starts h
  | version =>
    change versionCut? (c :: cs) = some r at h
    unfold versionCut? at h
    split at h
    next hd => exact hd
    next => cases h
  | separator => exact runCut?_starts h
  | pragmaWord => exact wordCut?_starts "pragma".toList h
  | comma => exact wordCut?_starts [] h
  | equal => exact wordCut?_starts [] h
  | closing => exact wordCut?_starts [] h
  | column =>
    change columnCut? (c :: cs) = some r at h
    unfold columnCut? at h
    split at h
    next hcs =>
      cases hcs
      rfl
    next => cases h
  | name => exact runCut?_starts h
  | text =>
    change textCut? (c :: cs) = some r at h
    unfold textCut? at h
    split at h
    next hcs =>
      cases hcs
      split at h
      next hc => simpa [starts] using hc
      next => cases h
    next hcs => cases hcs
  | versionWord => exact wordCut?_starts "ersion".toList h
  | loadWord => exact wordCut?_starts "oad-directives".toList h

theorem Terminal.cut?_eq_none_of_starts {t : Terminal} (h : t.starts c = false) : t.cut? (c :: cs) = none := by
  cases hr : t.cut? (c :: cs) with
  | none => rfl
  | some r =>
    rw [starts_of_cut? hr] at h
    cases h

/-- Whether `c` is one of the blanks that may stand between terminals. -/
def isGapBlank (c : Char) : Bool :=
  c == ' ' || c == '\t' || c == '\x0c' || c == '\r'

theorem isGapBlank_iff : isGapBlank c = true ↔ c = ' ' ∨ c = '\t' ∨ c = '\x0c' ∨ c = '\r' := by
  simp [isGapBlank, or_assoc]

theorem isBlank_of_isGapBlank (h : isGapBlank c = true) : Text.isBlank c = true := by
  rcases isGapBlank_iff.mp h with rfl | rfl | rfl | rfl <;> decide

theorem not_isLexical_of_isGapBlank (h : isGapBlank c = true) : isLexical c = false := by
  rcases isGapBlank_iff.mp h with rfl | rfl | rfl | rfl <;> exact isLexical_mark (by decide)

/-- No terminal starts with a blank. -/
theorem Terminal.not_starts_of_isGapBlank (h : isGapBlank c = true) (t : Terminal) : t.starts c = false := by
  rcases isGapBlank_iff.mp h with rfl | rfl | rfl | rfl <;> cases t <;> decide

theorem Terminal.not_starts_slash (t : Terminal) : t.starts '/' = false := by
  cases t <;> decide

theorem Terminal.not_starts_point (t : Terminal) : t.starts '.' = false := by
  cases t <;> decide

/-- A gap is a comment up to the end of the line, or a run of blanks. -/
theorem gapCut?_cases {r : Cut} (h : gapCut? cs = some r) :
    (∃ ds, cs = '/' :: '/' :: ds ∧ r.1 = '/' :: '/' :: ds.takeWhile (· != '\n') ∧
      r.2 = ds.dropWhile (· != '\n')) ∨
    (∃ d ds, isGapBlank d = true ∧ cs = d :: ds ∧ r.1 = d :: ds.takeWhile isGapBlank ∧
      r.2 = ds.dropWhile isGapBlank) := by
  unfold gapCut? at h
  split at h
  next ds =>
    cases h
    exact .inl ⟨ds, rfl, rfl, rfl⟩
  next =>
    cases cs with
    | nil => cases h
    | cons d ds =>
      have hd := runCut?_starts h
      simp only [runCut?, hd, if_true] at h
      cases h
      exact .inr ⟨d, ds, hd, rfl, rfl, rfl⟩

theorem gapCut?_blanks {u xs : List Char} (hc : isGapBlank c = true) (hu : ∀ d ∈ u, isGapBlank d = true)
    (hx : ∀ d ∈ xs.head?, isGapBlank d = false) : gapCut? (c :: (u ++ xs)) = some (c :: u, xs) := by
  have hslash : c ≠ '/' := by
    rintro rfl
    cases hc
  have hfirst : (u ++ xs).takeWhile isGapBlank = u := by
    rw [takeWhile_append_of_head hx]
    exact List.takeWhile_eq_self_iff.mpr hu
  have hrest : (u ++ xs).dropWhile isGapBlank = xs := by
    rw [dropWhile_append_of_head hx, List.dropWhile_eq_nil_iff.mpr hu, List.nil_append]
  rw [gapCut?]
  · change runCut? isGapBlank isGapBlank (c :: (u ++ xs)) = _
    rw [runCut?, if_pos hc, hfirst, hrest]
  · simp [hslash]

theorem gapCut?_comment {u xs : List Char} (hu : '\n' ∉ u) (hx : ∀ d ∈ xs.head?, d = '\n') :
    gapCut? ('/' :: '/' :: (u ++ xs)) = some ('/' :: '/' :: u, xs) := by
  have hx : ∀ d ∈ xs.head?, (d != '\n') = false := by
    intro d hd
    simp [hx d hd]
  have hu : ∀ d ∈ u, (d != '\n') = true := by
    intro d hd
    rw [bne_iff_ne]
    rintro rfl
    exact hu hd
  rw [gapCut?, takeWhile_append_of_head hx, dropWhile_append_of_head hx,
    List.takeWhile_eq_self_iff.mpr hu, List.dropWhile_eq_nil_iff.mpr hu, List.nil_append]

/-! ## Steps -/

namespace State

variable {s s' s₂ : State} {t : Terminal} {p : Piece} {w rest cs₂ rest₂ : List Char}

/-- What a terminal reads in a state, if the state offers it. -/
def reads? (s : State) (cs : List Char) (t : Terminal) : Option (Piece × State × List Char) :=
  match s.next? t, t.cut? cs with
  | some s, some r => some (⟨some t, r.1⟩, s, r.2)
  | _, _ => none

theorem reads?_eq_some {x : Piece × State × List Char} :
    s.reads? cs t = some x ↔
      x.1.terminal? = some t ∧ s.next? t = some x.2.1 ∧ t.cut? cs = some (x.1.text, x.2.2) := by
  obtain ⟨⟨t', w⟩, s', rest⟩ := x
  unfold reads?
  cases hs : s.next? t with
  | none => simp
  | some s₁ =>
    cases hc : t.cut? cs with
    | none => simp
    | some r =>
      simp only [Option.some.injEq, Prod.ext_iff, Piece.mk.injEq]
      constructor
      · rintro ⟨⟨rfl, rfl⟩, rfl, rfl⟩
        exact ⟨rfl, rfl, rfl, rfl⟩
      · rintro ⟨rfl, rfl, rfl, rfl⟩
        exact ⟨⟨rfl, rfl⟩, rfl, rfl⟩

theorem reads?_eq_none : s.reads? cs t = none ↔ s.next? t = none ∨ t.cut? cs = none := by
  unfold reads?
  cases s.next? t <;> cases t.cut? cs <;> simp

/-- A step tries the terminals in their order, and a gap at last. -/
theorem step?_eq (s : State) (cs : List Char) :
    s.step? cs = (Terminal.all.findSome? (s.reads? cs)).or
      ((gapCut? cs).map fun r => (⟨none, r.1⟩, s, r.2)) := by
  have hoffers : s.offers.findSome? (s.reads? cs) = Terminal.all.findSome? (s.reads? cs) := by
    unfold offers
    induction Terminal.all with
    | nil => rfl
    | cons t ts ih =>
      rw [List.filter_cons, List.findSome?_cons]
      split
      next => rw [List.findSome?_cons, ih]
      next ht =>
        rw [Bool.not_eq_true, Option.isSome_eq_false_iff, Option.isNone_iff_eq_none] at ht
        rw [reads?_eq_none.mpr (.inl ht), ih]
  rw [← hoffers, step?]
  simp only [Option.orElse_eq_orElse, Option.orElse_eq_or]
  rfl

/-- A step reads a terminal that the state offers, or a gap where no terminal can be read. -/
theorem step?_cases (h : s.step? cs = some (p, s', rest)) :
    (∃ t, p.terminal? = some t ∧ s.next? t = some s' ∧ t.cut? cs = some (p.text, rest)) ∨
    (p.terminal? = none ∧ s' = s ∧ gapCut? cs = some (p.text, rest) ∧
      ∀ t, s.next? t = none ∨ t.cut? cs = none) := by
  rw [step?_eq, Option.or_eq_some_iff] at h
  rcases h with h | ⟨hnone, h⟩
  · obtain ⟨t, _, ht⟩ := List.exists_of_findSome?_eq_some h
    exact .inl ⟨t, reads?_eq_some.mp ht⟩
  · obtain ⟨r, hr, he⟩ := Option.map_eq_some_iff.mp h
    cases he
    refine .inr ⟨rfl, rfl, hr, fun t => ?_⟩
    exact reads?_eq_none.mp (List.findSome?_eq_none_iff.mp hnone t (Terminal.mem_all t))

/-- A terminal is read if those that are tried before it cannot be read. -/
theorem step?_of_before {before after : List Terminal} (hall : Terminal.all = before ++ t :: after)
    (hnext : s.next? t = some s') (hcut : t.cut? cs = some (w, rest))
    (hbefore : ∀ u ∈ before, s.next? u = none ∨ u.cut? cs = none) : s.step? cs = some (⟨some t, w⟩, s', rest) := by
  rw [step?_eq, Option.or_eq_some_iff]
  refine .inl (List.findSome?_eq_some_iff.mpr ⟨before, t, after, hall, ?_, ?_⟩)
  · exact reads?_eq_some.mpr ⟨rfl, hnext, hcut⟩
  · intro u hu
    exact reads?_eq_none.mpr (hbefore u hu)

/-- A terminal that is read in one place is read in another, if no further terminal can be read there. -/
theorem step?_transfer {s₂' : State} {w₂ : List Char} (h : s.step? cs = some (⟨some t, w⟩, s', rest))
    (hother : ∀ u, s.next? u = none ∨ u.cut? cs = none → s₂.next? u = none ∨ u.cut? cs₂ = none)
    (hnext : s₂.next? t = some s₂') (hcut : t.cut? cs₂ = some (w₂, rest₂)) :
    s₂.step? cs₂ = some (⟨some t, w₂⟩, s₂', rest₂) := by
  rw [step?_eq, Option.or_eq_some_iff] at h
  rcases h with h | ⟨_, h⟩
  · obtain ⟨before, u, after, hall, hu, hbefore⟩ := List.findSome?_eq_some_iff.mp h
    obtain rfl : t = u := by simpa using (reads?_eq_some.mp hu).1
    refine step?_of_before hall hnext hcut ?_
    intro u hu
    exact hother u (reads?_eq_none.mp (hbefore u hu))
  · obtain ⟨r, _, he⟩ := Option.map_eq_some_iff.mp h
    cases he

/-- The only terminal that can be read is read. -/
theorem step?_of_only (hnext : s.next? t = some s') (hcut : t.cut? cs = some (w, rest))
    (hother : ∀ u, u ≠ t → s.next? u = none ∨ u.cut? cs = none) : s.step? cs = some (⟨some t, w⟩, s', rest) := by
  obtain ⟨before, after, hall⟩ := List.append_of_mem (Terminal.mem_all t)
  refine step?_of_before hall hnext hcut ?_
  intro u hu
  apply hother
  rintro rfl
  have hnodup : Terminal.all.Nodup := by decide
  rw [hall] at hnodup
  exact (List.nodup_append.mp hnodup).2.2 u hu u List.mem_cons_self rfl

theorem step?_of_opening (hnext : s.next? .opening = some s') (hcut : openingCut? cs = some (w, rest)) :
    s.step? cs = some (⟨some .opening, w⟩, s', rest) :=
  step?_of_before (show Terminal.all = [] ++ .opening :: Terminal.all.tail from rfl) hnext hcut nofun

theorem step?_of_gap (hother : ∀ t, s.next? t = none ∨ t.cut? cs = none) (hgap : gapCut? cs = some (w, rest)) :
    s.step? cs = some (⟨none, w⟩, s, rest) := by
  have hnone : Terminal.all.findSome? (s.reads? cs) = none :=
    List.findSome?_eq_none_iff.mpr fun t _ => reads?_eq_none.mpr (hother t)
  rw [step?_eq, hnone, hgap]
  rfl

/-- The state behind a piece. -/
def after (s : State) (p : Piece) : State :=
  match p.terminal? with
  | some t => (s.next? t).getD s
  | none => s

theorem after_of_step? (h : s.step? cs = some (p, s', rest)) : s.after p = s' := by
  rcases step?_cases h with ⟨t, ht, hnext, _⟩ | ⟨ht, rfl, _⟩
  · simp [after, ht, hnext]
  · simp [after, ht]

end State

/-! ## The judgment -/

/-- Scanning from the state reads the text as the pieces. -/
inductive Scanned : State → List Char → List Piece → Prop
  | done {s : State} (h : s.isFinal = true) : Scanned s [] []
  | step {s s' : State} {cs rest : List Char} {p : Piece} {ps : List Piece}
      (h : s.step? cs = some (p, s', rest)) (hps : Scanned s' rest ps) : Scanned s cs (p :: ps)

theorem State.step?_nil (s : State) : s.step? [] = none := by
  cases h : s.step? [] with
  | none => rfl
  | some x =>
    have := (s.step?_of h).length_lt
    cases this

theorem scan_eq_ok_iff {s : State} {cs : List Char} {ps : List Piece} :
    scan s cs = .ok ps ↔ Scanned s cs ps := by
  constructor
  · intro h
    fun_induction scan s cs generalizing ps with
    | case1 s hf =>
      cases h
      exact .done hf
    | case2 => cases h
    | case3 => cases h
    | case4 s c cs p s' rest hstep ps' hps ih =>
      cases h
      exact .step hstep (ih hps)
    | case5 => cases h
  · intro h
    induction h with
    | done hf =>
      rw [scan, if_pos hf]
      rfl
    | @step s s' cs rest p ps h _ ih =>
      cases cs with
      | nil =>
        rw [State.step?_nil] at h
        cases h
      | cons c cs =>
        rw [scan]
        split
        next hnone =>
          rw [h] at hnone
          cases hnone
        next hsome =>
          rw [h] at hsome
          cases hsome
          rw [ih]
          rfl

/-- How the first of several pieces was read. -/
structure Uncons (s : State) (cs : List Char) (p : Piece) (ps : List Piece) : Prop where
  step : s.step? cs = some (p, s.after p, Piece.textOf ps)
  rest : Scanned (s.after p) (Piece.textOf ps) ps
  text : cs = p.text ++ Piece.textOf ps
  ne_nil : p.text ≠ []

/-- How a terminal was read. -/
theorem Uncons.reads {s : State} {t : Terminal} {w : List Char} {ps : List Piece} (h : Uncons s cs ⟨some t, w⟩ ps) :
    s.next? t = some (s.after ⟨some t, w⟩) ∧ t.cut? cs = some (w, Piece.textOf ps) := by
  rcases State.step?_cases h.step with ⟨t', ht, hnext, hcut⟩ | ⟨ht, -⟩
  · cases ht
    exact ⟨hnext, hcut⟩
  · cases ht

/-- How a gap was read. -/
theorem Uncons.gap {s : State} {p : Piece} {ps : List Piece} (h : Uncons s cs p ps) (hp : p.terminal? = none) :
    s.after p = s ∧ gapCut? cs = some (p.text, Piece.textOf ps) := by
  rcases State.step?_cases h.step with ⟨t, ht, -⟩ | ⟨-, hafter, hgap, -⟩
  · rw [hp] at ht
    cases ht
  · exact ⟨hafter, hgap⟩

namespace Scanned

variable {s : State} {p : Piece} {ps : List Piece}

theorem text (h : Scanned s cs ps) : Piece.textOf ps = cs :=
  scan_text (scan_eq_ok_iff.mpr h)

theorem uncons (h : Scanned s cs (p :: ps)) : Uncons s cs p ps := by
  have htext := h.text
  cases h with
  | step hstep hps =>
    have hne := (s.step?_of hstep).1
    obtain rfl := State.after_of_step? hstep
    obtain rfl := hps.text
    exact ⟨hstep, hps, htext.symm, hne⟩

/-- A text that is scanned starts with a blank, a comment, or what a terminal starts with. -/
theorem head (h : Scanned s (c :: cs) ps) :
    isGapBlank c = true ∨ c = '/' ∨ ∃ t : Terminal, t.starts c = true := by
  cases h with
  | step hstep _ =>
    rcases State.step?_cases hstep with ⟨t, _, _, hcut⟩ | ⟨_, _, hgap, _⟩
    · exact .inr (.inr ⟨t, Terminal.starts_of_cut? hcut⟩)
    · rcases gapCut?_cases hgap with ⟨ds, hcs, _⟩ | ⟨d, ds, hd, hcs, _⟩
      · cases hcs
        exact .inr (.inl rfl)
      · cases hcs
        exact .inl hd

theorem head_ne_point (h : Scanned s cs ps) : ∀ c ∈ cs.head?, c ≠ '.' := by
  rintro c hc rfl
  obtain ⟨ds, rfl⟩ := List.head?_eq_some_iff.mp hc
  rcases h.head with hblank | hslash | ⟨t, ht⟩
  · cases hblank
  · cases hslash
  · rw [t.not_starts_point] at ht
    cases ht

end Scanned

end RowRecipe.Grammar
