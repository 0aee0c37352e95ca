import RowRecipe.Proofs.Grammar.Surroundings

/-!
# Numbers cut short

A number ends where it cannot go on, and so does a unit. What follows may be glued to them, as in `5-3` or
`10MB.x`; they are read in the same way without it.
-/

namespace RowRecipe.Grammar

variable {cs u v w rest : List Char} {kind : UnitKind}

/-! ## Numbers -/

theorem spanDigits_run (hw : ∀ c ∈ w, Text.isDigit c = true) (hrest : ∀ c ∈ rest.head?, Text.isDigit c = false) :
    Decimal.spanDigits (w ++ rest) = (w, rest) := by
  rw [Decimal.spanDigits, takeWhile_append_of_head hrest, dropWhile_append_of_head hrest,
    List.takeWhile_eq_self_iff.mpr hw, List.dropWhile_eq_nil_iff.mpr hw, List.nil_append]

/-- An unsigned number is a run of digits, or two of them with a point in between; it goes on as long as it
can. -/
theorem unsignedCut?_eq_some :
    unsignedCut? cs = some (w, rest) ↔ cs = w ++ rest ∧ (∀ c ∈ rest.head?, Text.isDigit c = false) ∧
      ∃ ds, ds ≠ [] ∧ (∀ d ∈ ds, Text.isDigit d = true) ∧
        ((w = ds ∧ ∀ r, rest = '.' :: r → ∀ c ∈ r.head?, Text.isDigit c = false) ∨
          ∃ es, es ≠ [] ∧ (∀ e ∈ es, Text.isDigit e = true) ∧ w = ds ++ '.' :: es) := by
  constructor
  · intro h
    have hof := (unsignedCut?_of h).2
    unfold unsignedCut? at h
    simp only at h
    split at h
    next => cases h
    next hne =>
      have hne : (Decimal.spanDigits cs).1 ≠ [] := by simpa using hne
      have hdigits : ∀ d ∈ (Decimal.spanDigits cs).1, Text.isDigit d = true := fun d => List.mem_takeWhile_imp
      have hend : ∀ c ∈ (Decimal.spanDigits cs).2.head?, Text.isDigit c = false := head?_dropWhile cs
      split at h
      next r hr =>
        split at h
        next hempty =>
          cases h
          refine ⟨hof.symm, hend, _, hne, hdigits, .inl ⟨rfl, ?_⟩⟩
          intro r' hr'
          obtain rfl : r' = r := (List.cons.inj (hr'.symm.trans hr)).2
          intro c hc
          obtain ⟨t, rfl⟩ := List.head?_eq_some_iff.mp hc
          by_contra hd
          rw [Bool.not_eq_false] at hd
          simp [Decimal.spanDigits, hd] at hempty
        next hpart =>
          have hpart : (Decimal.spanDigits r).1 ≠ [] := by simpa using hpart
          cases h
          exact ⟨hof.symm, head?_dropWhile r, _, hne, hdigits, .inr ⟨_, hpart, fun e => List.mem_takeWhile_imp, rfl⟩⟩
      next hpoint =>
        cases h
        exact ⟨hof.symm, hend, _, hne, hdigits, .inl ⟨rfl, fun r hr => absurd hr (hpoint r)⟩⟩
  · rintro ⟨rfl, hend, ds, hne, hds, ⟨rfl, hpoint⟩ | ⟨es, hes, hdigits, rfl⟩⟩
    · simp only [unsignedCut?, spanDigits_run hds hend, List.isEmpty_eq_false_iff.mpr hne, Bool.false_eq_true, if_false]
      split
      next _ r =>
        have hpart : (Decimal.spanDigits r).1 = [] := by
          have hempty := spanDigits_run (w := []) (by simp) (hpoint r rfl)
          rw [List.nil_append] at hempty
          rw [hempty]
        rw [hpart]
        rfl
      next => rfl
    · have hpoint : ∀ c ∈ ('.' :: (es ++ rest)).head?, Text.isDigit c = false := by
        rintro _ ⟨⟩
        decide
      have hspan := spanDigits_run hds hpoint
      rw [List.append_assoc, List.cons_append]
      simp only [unsignedCut?, hspan, spanDigits_run hdigits hend, List.isEmpty_eq_false_iff.mpr hne,
        List.isEmpty_eq_false_iff.mpr hes, Bool.false_eq_true, if_false]

theorem unsignedCut?_truncate (h : unsignedCut? (w ++ (u ++ v)) = some (w, u ++ v)) :
    unsignedCut? (w ++ u) = some (w, u) := by
  obtain ⟨-, hend, ds, hne, hds, hw⟩ := unsignedCut?_eq_some.mp h
  have first {u : List Char} {c : Char} (hc : c ∈ u.head?) : c ∈ (u ++ v).head? := by
    obtain ⟨t, rfl⟩ := List.head?_eq_some_iff.mp hc
    rfl
  refine unsignedCut?_eq_some.mpr ⟨rfl, fun c hc => hend c (first hc), ds, hne, hds, hw.imp_left ?_⟩
  rintro ⟨rfl, hpoint⟩
  refine ⟨rfl, ?_⟩
  rintro r rfl c hc
  exact hpoint _ rfl c (first hc)

theorem numberCut?_truncate (h : numberCut? (w ++ (u ++ v)) = some (w, u ++ v)) : numberCut? (w ++ u) = some (w, u) := by
  obtain ⟨c, w, rfl⟩ := List.exists_cons_of_ne_nil (numberCut?_of h).1
  by_cases hc : c = '-'
  · subst hc
    obtain ⟨⟨w', r⟩, hr, he⟩ := Option.map_eq_some_iff.mp h
    simp only [Prod.mk.injEq, List.cons.injEq, true_and] at he
    obtain ⟨rfl, rfl⟩ := he
    have hcut := unsignedCut?_truncate hr
    simp only [List.cons_append, numberCut?, hcut, Option.map_some]
  · have hplain (v : List Char) : numberCut? (c :: v) = unsignedCut? (c :: v) := by
      rw [numberCut?]
      simp [hc]
    rw [List.cons_append, hplain] at h ⊢
    exact unsignedCut?_truncate (w := c :: w) h

/-! ## Quantities -/

theorem lettersCut?_append_of_some {same : Char → Char → Bool} {ls : List Char} {r : Cut}
    (h : lettersCut? same ls u = some r) (v : List Char) : lettersCut? same ls (u ++ v) = some (r.followedBy v) := by
  induction ls generalizing u r with
  | nil =>
    rw [lettersCut?] at h
    cases h
    rw [lettersCut?]
    rfl
  | cons l ls ih =>
    cases u with
    | nil => cases h
    | cons c u =>
      rw [lettersCut?] at h
      split at h
      next hsame =>
        obtain ⟨r, hr, rfl⟩ := Option.map_eq_some_iff.mp h
        rw [List.cons_append, lettersCut?, if_pos hsame, ih hr]
        rfl
      next => cases h

theorem lettersCut?_length {same : Char → Char → Bool} {ls : List Char} {r : Cut}
    (h : lettersCut? same ls cs = some r) : r.1.length = ls.length := by
  fun_induction lettersCut? same ls cs generalizing r with
  | case1 =>
    cases h
    rfl
  | case2 => cases h
  | case3 l ls c cs _ ih =>
    obtain ⟨u, hu, rfl⟩ := Option.map_eq_some_iff.mp h
    exact congrArg (· + 1) (ih hu)
  | case4 => cases h

theorem lettersCut?_truncate {same : Char → Char → Bool} {ls : List Char}
    (h : lettersCut? same ls (u ++ v) = some (u, v)) : lettersCut? same ls u = some (u, []) := by
  induction ls generalizing u with
  | nil =>
    rw [lettersCut?] at h
    simp only [Option.some.injEq, Prod.mk.injEq] at h
    obtain rfl := h.1
    rw [lettersCut?]
  | cons l ls ih =>
    cases u with
    | nil =>
      have hof := lettersCut?_length h
      cases hof
    | cons c u =>
      rw [List.cons_append, lettersCut?] at h
      rw [lettersCut?]
      split at h
      next hsame =>
        obtain ⟨⟨u', r⟩, hr, he⟩ := Option.map_eq_some_iff.mp h
        simp only [Prod.mk.injEq, List.cons.injEq, true_and] at he
        obtain ⟨rfl, rfl⟩ := he
        rw [if_pos hsame, ih hr]
        rfl
      next => cases h

namespace Spelling

variable {s : Spelling}

theorem cut?_eq_some {r : Cut} : s.cut? cs = some r ↔
    lettersCut? (if s.anyCase then sameLetter else (· == ·)) s.text.toList cs = some r ∧ endsUnit r.2 = true := by
  rw [cut?, Option.filter_eq_some_iff]

theorem cut?_truncate (h : s.cut? (u ++ v) = some (u, v)) : s.cut? u = some (u, []) :=
  cut?_eq_some.mpr ⟨lettersCut?_truncate (cut?_eq_some.mp h).1, rfl⟩

/-- A unit that is not found is not found in a shorter text, if a unit may end there. -/
theorem cut?_eq_none (hv : endsUnit v = true) (h : s.cut? (u ++ v) = none) : s.cut? u = none := by
  cases hu : s.cut? u with
  | none => rfl
  | some r =>
    obtain ⟨hletters, hend⟩ := cut?_eq_some.mp hu
    have hmore : endsUnit (r.2 ++ v) = true := by
      cases hr : r.2 with
      | nil => exact hv
      | cons c cs =>
        rw [hr] at hend
        exact hend
    rw [cut?_eq_some.mpr ⟨lettersCut?_append_of_some hletters v, hmore⟩] at h
    cases h

end Spelling

/-- A text that is a number with something glued to it, which is nothing at all or ends as a unit does. -/
structure Glued (w rest n u : List Char) : Prop where
  text : w = n ++ u
  number : numberCut? (n ++ (u ++ rest)) = some (n, u ++ rest)
  ends : u = [] ∨ endsUnit rest = true

theorem glued_of_numberCut? (h : numberCut? (w ++ rest) = some (w, rest)) : Glued w rest w [] :=
  ⟨(List.append_nil w).symm, h, .inl rfl⟩

theorem spelling_ne_nil {s : Spelling} (hs : s ∈ spellings kind) : s.text.toList ≠ [] := by
  have hall : ∀ kind, ∀ s ∈ spellings kind, s.text.toList ≠ [] := by
    intro kind
    cases kind <;> decide
  exact hall kind s hs

theorem glued_of_quantityCut? (h : quantityCut? kind (w ++ rest) = some (w, rest)) :
    ∃ n u, Glued w rest n u ∧ (spellings kind).findSome? (fun s => s.cut? (u ++ rest)) = some (u, rest) := by
  have hof := (quantityCut?_of h).2
  unfold quantityCut? at h
  split at h
  next => cases h
  next n hn =>
    obtain ⟨⟨u, r⟩, hu, he⟩ := Option.map_eq_some_iff.mp h
    simp only [Prod.mk.injEq] at he
    obtain ⟨rfl, rfl⟩ := he
    obtain ⟨s, hs, hcut⟩ := List.exists_of_findSome?_eq_some hu
    obtain ⟨hletters, hend⟩ := Spelling.cut?_eq_some.mp hcut
    have hrest : n.2 = u ++ r := (lettersCut?_append hletters).symm
    have htext := numberCut?_of hn
    rw [hrest] at hu
    refine ⟨n.1, u, ⟨rfl, ?_, .inr hend⟩, hu⟩
    rw [← List.append_assoc, hn, ← hrest]

namespace Glued

variable {n : List Char}

theorem numberCut? (h : Glued w rest n u) : Grammar.numberCut? w = some (n, u) := by
  rw [h.text]
  exact numberCut?_truncate h.number

theorem quantityCut?_eq_none (h : Glued w rest n u) (hnone : quantityCut? kind (w ++ rest) = none) :
    quantityCut? kind w = none := by
  rw [quantityCut?, h.text, List.append_assoc, h.number, Option.map_eq_none_iff, List.findSome?_eq_none_iff] at hnone
  rw [quantityCut?, h.numberCut?, Option.map_eq_none_iff, List.findSome?_eq_none_iff]
  intro s hs
  rcases h.ends with rfl | hend
  · obtain ⟨l, ls, hl⟩ := List.exists_cons_of_ne_nil (spelling_ne_nil hs)
    rw [Spelling.cut?, hl]
    rfl
  · exact Spelling.cut?_eq_none hend (hnone s hs)

theorem malformedCut?_eq_none (h : Glued w rest n u) (hnone : malformedCut? (w ++ rest) = none) :
    malformedCut? w = none := by
  rw [malformedCut?, h.text, List.append_assoc, h.number, Option.map_eq_none_iff] at hnone
  rw [malformedCut?, h.numberCut?, Option.map_eq_none_iff]
  cases u with
  | nil => rfl
  | cons c u =>
    simp only [List.cons_append, runCut?] at hnone ⊢
    split at hnone
    next => cases hnone
    next hc => rw [if_neg hc]

end Glued

theorem quantityCut?_truncate (h : quantityCut? kind (w ++ rest) = some (w, rest)) :
    quantityCut? kind w = some (w, []) := by
  obtain ⟨n, u, hglued, hfind⟩ := glued_of_quantityCut? h
  obtain ⟨before, s, after, hall, hcut, hbefore⟩ := List.findSome?_eq_some_iff.mp hfind
  have hfind : (spellings kind).findSome? (fun s => s.cut? u) = some (u, []) := by
    refine List.findSome?_eq_some_iff.mpr ⟨before, s, after, hall, Spelling.cut?_truncate hcut, fun s hs => ?_⟩
    exact Spelling.cut?_eq_none (Spelling.cut?_eq_some.mp hcut).2 (hbefore s hs)
  rw [quantityCut?, hglued.numberCut?]
  simp only [hfind, Option.map_some, ← hglued.text]

/-! ## Steps -/

/-- Whether a terminal is a number with a meaning, which may have a unit. -/
def Terminal.isNumeric : Terminal → Bool
  | number | byteSize | duration => true
  | _ => false

/-- No number starts with a letter of a keyword. -/
theorem Terminal.isNumeric_starts {t : Terminal} (ht : t.isNumeric = true) {c : Char} (hc : c ∈ ['p', 'v', 'l']) :
    t.starts c = false := by
  have hfirst : (c == '-' || Text.isDigit c) = false := by
    simp only [List.mem_cons, List.not_mem_nil, or_false] at hc
    rcases hc with rfl | rfl | rfl <;> decide
  cases t with
  | number | byteSize | duration => exact hfirst
  | _ => cases ht

/-- A number or quantity is read as such where nothing follows it. -/
theorem State.step?_truncate {s s' : State} {t : Terminal} (ht : t.isNumeric = true)
    (h : s.step? (w ++ rest) = some (⟨some t, w⟩, s', rest)) : s.step? w = some (⟨some t, w⟩, s', []) := by
  obtain ⟨hnext, hcut⟩ : s.next? t = some s' ∧ t.cut? (w ++ rest) = some (w, rest) := by
    rcases step?_cases h with ⟨t', ht', hnext, hcut⟩ | ⟨ht', _⟩
    · cases ht'
      exact ⟨hnext, hcut⟩
    · cases ht'
  obtain ⟨n, u, hglued, hagain⟩ : ∃ n u, Glued w rest n u ∧ t.cut? w = some (w, []) := by
    cases t with
    | number =>
      have hglued := glued_of_numberCut? hcut
      exact ⟨_, _, hglued, hglued.numberCut?⟩
    | byteSize | duration =>
      obtain ⟨n, u, hglued, -⟩ := glued_of_quantityCut? hcut
      exact ⟨n, u, hglued, quantityCut?_truncate hcut⟩
    | _ => cases ht
  obtain ⟨c, ds, rfl⟩ := List.exists_cons_of_ne_nil (Terminal.cut?_of hcut).1
  refine step?_transfer h (fun u' hu' => ?_) hnext hagain
  refine hu'.imp_right fun hnone => ?_
  cases hstart : u'.starts c with
  | false => exact Terminal.cut?_eq_none_of_starts hstart
  | true =>
    cases u' with
    | duration => exact hglued.quantityCut?_eq_none hnone
    | byteSize => exact hglued.quantityCut?_eq_none hnone
    | malformedUnit => exact hglued.malformedCut?_eq_none hnone
    | number =>
      have hnumber := hglued.number
      rw [← List.append_assoc, ← hglued.text] at hnumber
      change numberCut? (c :: ds ++ rest) = none at hnone
      rw [hnone] at hnumber
      cases hnumber
    | version =>
      change versionCut? (c :: ds ++ rest) = none at hnone
      change versionCut? (c :: ds) = none
      unfold versionCut? at hnone ⊢
      split at hnone
      next => cases hnone
      next hc => exact if_neg hc
    | name =>
      change runCut? isNameStart isNameChar (c :: (ds ++ rest)) = none at hnone
      rw [runCut?, if_pos (show isNameStart c = true from hstart)] at hnone
      cases hnone
    | opening | versionWord | loadWord =>
      have hfirst := Terminal.starts_of_cut? hcut
      rw [beq_iff_eq.mp hstart, Terminal.isNumeric_starts ht (by simp)] at hfirst
      cases hfirst
    | separator | pragmaWord | comma | equal | closing | column | text =>
      obtain rfl := Terminal.eq_of_starts rfl hstart (Terminal.starts_of_cut? hcut)
      cases ht

end RowRecipe.Grammar
