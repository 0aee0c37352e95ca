import RowRecipe.Proofs.Migration.Legible

/-!
# Bare pieces and words

A bare piece of migration ends before a delimiter, so terminals are cut from it whatever follows. A bare
word among the arguments of a directive is read as one name.
-/

namespace RowRecipe.Migration

open Grammar

/-! ## Characters -/

section Characters

variable {c : Char} {u w l r cs rest : List Char}

theorem isBare_of_isLexical (h : isLexical c = true) : isBare c = true := by
  have hne {d : Char} (hd : isLexical d = false) : c ≠ d := by
    rintro rfl
    rw [h] at hd
    cases hd
  exact isBare_iff.mpr ⟨not_isBlank_of_isLexical h, hne (isLexical_mark (by decide)), hne (isLexical_mark (by decide)),
    hne (isLexical_mark (by decide)), hne (isLexical_mark (by decide))⟩

theorem delimits_of_not_isBare (h : ∀ c ∈ cs.head?, isBare c = false) : Delimits cs := by
  intro c hc
  rw [← Bool.not_eq_true]
  intro hlex
  have := h c hc
  rw [isBare_of_isLexical hlex] at this
  cases this

theorem newline_not_mem_of_isBare (h : ∀ c ∈ u, isBare c = true) : '\n' ∉ u :=
  fun hn => absurd (h _ hn) (by decide)

/-- The bare run at the start of a text is unique. -/
theorem bare_append_inj (hu : ∀ c ∈ u, isBare c = true) (hw : ∀ c ∈ w, isBare c = true)
    (hl : ∀ c ∈ l.head?, isBare c = false) (hr : ∀ c ∈ r.head?, isBare c = false) (h : u ++ l = w ++ r) :
    u = w ∧ l = r := by
  have htake := congrArg (List.takeWhile isBare) h
  have hdrop := congrArg (List.dropWhile isBare) h
  rw [takeWhile_append_of_head hl, takeWhile_append_of_head hr, List.takeWhile_eq_self_iff.mpr hu,
    List.takeWhile_eq_self_iff.mpr hw] at htake
  rw [dropWhile_append_of_head hl, dropWhile_append_of_head hr, List.dropWhile_eq_nil_iff.mpr hu,
    List.dropWhile_eq_nil_iff.mpr hw] at hdrop
  exact ⟨htake, hdrop⟩

theorem hasSlashes_append (h : '/' ∉ u) : hasSlashes (u ++ w) = hasSlashes w := by
  induction u with
  | nil => rfl
  | cons c u ih =>
    rw [List.mem_cons, not_or] at h
    rw [List.cons_append, hasSlashes, ih h.2]
    simp [Ne.symm h.1]

theorem hasSlashes_eq_false (h : '/' ∉ u) : hasSlashes u = false := by
  have := hasSlashes_append (w := []) h
  rwa [List.append_nil] at this

theorem slash_not_mem_of_isBareWord (h : isBareWord w = true) : '/' ∉ w := by
  cases w with
  | nil => cases h
  | cons c ds =>
    simp only [isBareWord, Bool.and_eq_true, List.all_eq_true] at h
    intro hmem
    rcases List.mem_cons.mp hmem with rfl | hmem
    · exact absurd h.1 (by decide)
    · exact absurd (h.2 '/' hmem) (by decide +kernel)

/-- A bare terminal holds no slash. -/
theorem slash_not_mem {t : Terminal} (ht : t ≠ .text) (ho : t ≠ .opening) (h : t.cut? cs = some (w, rest)) :
    '/' ∉ w :=
  Terminal.not_mem_of_cut? ht ho h (by decide +kernel) t.not_starts_slash

theorem endsLexical_eq_false (h : isLexical c = false) : endsLexical (u ++ [c]) = false := by
  rw [endsLexical, List.getLast?_append, List.getLast?_singleton]
  exact h

/-- A text ends in its closing quote. -/
theorem textCut?_endsLexical (h : textCut? cs = some (w, rest)) : endsLexical w = false := by
  have closing {quote : Char} {cs : List Char} {r : Cut} (h : closingCut? quote cs = some r) :
      ∃ u, r.1 = u ++ [quote] := by
    fun_induction closingCut? quote cs generalizing r with
    | case1 => cases h
    | case2 => cases h
    | case3 c cs hc ih =>
      obtain ⟨v, hv, rfl⟩ := Option.map_eq_some_iff.mp h
      obtain ⟨u, hu⟩ := ih hv
      exact ⟨'\\' :: c :: u, by rw [hu]; rfl⟩
    | case4 =>
      cases h
      exact ⟨[], rfl⟩
    | case5 => cases h
    | case6 c cs _ _ _ ih =>
      obtain ⟨v, hv, rfl⟩ := Option.map_eq_some_iff.mp h
      obtain ⟨u, hu⟩ := ih hv
      exact ⟨c :: u, by rw [hu]; rfl⟩
  unfold textCut? at h
  split at h
  next c cs =>
    split at h
    next hc =>
      obtain ⟨r, hr, he⟩ := Option.map_eq_some_iff.mp h
      obtain ⟨u, hu⟩ := closing hr
      obtain rfl : c :: r.1 = w := congrArg Prod.fst he
      rw [hu, ← List.cons_append]
      apply endsLexical_eq_false
      rcases hc with rfl | rfl <;> decide +kernel
    next => cases h
  next => cases h

end Characters

/-! ## Words among arguments -/

section Words

variable {c : Char} {cs w r q xs : List Char} {s s' : State} {t : Terminal} {ps : List Piece}

theorem not_isNameStart_of_isDigit (h : Text.isDigit c = true) : isNameStart c = false := by
  have apart : (Text.digitZeros.all fun z => Nat.blt (z + 9) 65 || Nat.blt 122 z) = true := by decide
  simp only [List.all_eq_true, Bool.or_eq_true, Nat.blt_eq] at apart
  unfold Text.isDigit Text.digitValue? at h
  rw [Option.isSome_map, List.find?_isSome] at h
  obtain ⟨z, hz, hc⟩ := h
  simp only [Bool.and_eq_true, decide_eq_true_eq] at hc
  rw [← Bool.not_eq_true, isNameStart, Bool.or_eq_true, beq_iff_eq]
  rintro (rfl | hlatin)
  · rcases apart z hz with hlt | hlt
    · have : '_'.toNat = 95 := rfl
      omega
    · have : '_'.toNat = 95 := rfl
      omega
  · simp only [Text.isLatin, Bool.or_eq_true, Bool.and_eq_true, decide_eq_true_eq] at hlatin
    have hlow : 65 ≤ c.toNat ∧ c.toNat ≤ 122 := by
      rcases hlatin with ⟨hl, hh⟩ | ⟨hl, hh⟩
      · exact ⟨hl, le_trans hh (by decide)⟩
      · exact ⟨le_trans (by decide) hl, hh⟩
    rcases apart z hz with hlt | hlt <;> omega

/-- Among arguments a terminal that starts as a name does is a name or an opening. -/
theorem name_or_opening (hs : s.inArguments = true) (hnext : s.next? t = some s') (hstart : t.starts c = true)
    (hc : isNameStart c = true) : (t = .name ∧ (∃ list, s = .arguments list) ∧ s' = .arguments none) ∨ t = .opening := by
  have hne {d : Char} (hd : isNameStart d = false) : c ≠ d := by
    rintro rfl
    rw [hc] at hd
    cases hd
  have hdigit : Text.isDigit c = false := by
    rw [← Bool.not_eq_true]
    intro hd
    rw [not_isNameStart_of_isDigit hd] at hc
    cases hc
  have hnumber : (c == '-' || Text.isDigit c) = false := by
    rw [hdigit, Bool.or_false, beq_eq_false_iff_ne]
    exact hne (by decide)
  cases s with
  | «arguments» list =>
    cases t with
    | name =>
      cases hnext
      exact .inl ⟨rfl, ⟨list, rfl⟩, rfl⟩
    | opening => exact .inr rfl
    | comma => exact absurd (beq_iff_eq.mp hstart) (hne (by decide))
    | column => exact absurd (beq_iff_eq.mp hstart) (hne (by decide))
    | separator =>
      simp only [Terminal.starts, Bool.or_eq_true, beq_iff_eq] at hstart
      rcases hstart with hstart | hstart <;> exact absurd hstart (hne (by decide))
    | text =>
      simp only [Terminal.starts, Bool.or_eq_true, beq_iff_eq] at hstart
      rcases hstart with hstart | hstart <;> exact absurd hstart (hne (by decide))
    | duration | byteSize | malformedUnit | number =>
      rw [Terminal.starts, hnumber] at hstart
      cases hstart
    | _ => cases hnext
  | item kind =>
    have hnext : (if t = kind then some (State.arguments (some kind)) else none) = some s' := hnext
    split at hnext
    next hk =>
      subst hk
      cases t with
      | column => exact absurd (beq_iff_eq.mp hstart) (hne (by decide))
      | text =>
        simp only [Terminal.starts, Bool.or_eq_true, beq_iff_eq] at hstart
        rcases hstart with hstart | hstart <;> exact absurd hstart (hne (by decide))
      | number =>
        rw [Terminal.starts, hnumber] at hstart
        cases hstart
      | _ => cases hs
    next => cases hnext
  | _ => cases hs

/-- A bare word among arguments is read as one name. -/
theorem name_of_isBareWord (hs : s.inArguments = true) (hnext : s.next? t = some s')
    (hcut : t.cut? (w ++ r) = some (q, xs)) (hopen : t ≠ .opening) (hw : isBareWord w = true)
    (hr : ∀ c ∈ r.head?, isNameChar c = false) (hxs : Scanned s' xs ps) :
    t = .name ∧ q = w ∧ xs = r ∧ (∃ list, s = .arguments list) ∧ s' = .arguments none := by
  obtain ⟨c, ds, rfl⟩ : ∃ c ds, w = c :: ds := by
    cases w with
    | nil => cases hw
    | cons c ds => exact ⟨c, ds, rfl⟩
  simp only [isBareWord, Bool.and_eq_true, List.all_eq_true] at hw
  rcases name_or_opening hs hnext (Terminal.starts_of_cut? hcut) hw.1 with ⟨rfl, hlist, hs'⟩ | rfl
  · have hrun : runCut? isNameStart isNameChar (c :: (ds ++ r)) = some (q, xs) := hcut
    rw [runCut?, if_pos hw.1, takeWhile_append_of_head hr, dropWhile_append_of_head hr, Option.some.injEq,
      Prod.mk.injEq] at hrun
    -- a point would be left behind the name, and nothing starts with one
    have hall : ds.dropWhile isNameChar = [] := by
      cases hd : ds.dropWhile isNameChar with
      | nil => rfl
      | cons d es =>
        have hname := head?_dropWhile (p := isNameChar) ds d (by rw [hd]; rfl)
        have hmem : d ∈ ds := (List.dropWhile_suffix _).subset (by rw [hd]; exact List.mem_cons_self)
        have hpoint := hw.2 d hmem
        rw [hname, Bool.or_false, beq_iff_eq] at hpoint
        refine absurd hpoint (hxs.head_ne_point d ?_)
        rw [← hrun.2, hd]
        rfl
    have hself : ds.takeWhile isNameChar = ds :=
      List.takeWhile_eq_self_iff.mpr (List.dropWhile_eq_nil_iff.mp hall)
    rw [hself, hall] at hrun
    exact ⟨rfl, hrun.1.symm, hrun.2.symm, hlist, hs'⟩
  · exact absurd rfl hopen

/-- Behind a name no comma can be read. -/
theorem not_scanned_comma : ¬ Scanned (.arguments none) (',' :: cs) ps := by
  intro h
  cases h with
  | step hstep _ =>
    rcases State.step?_cases hstep with ⟨t, _, hnext, hcut⟩ | ⟨_, _, hgap, _⟩
    · obtain rfl := Terminal.eq_of_starts (t := .comma) rfl rfl (Terminal.starts_of_cut? hcut)
      cases hnext
    · rcases gapCut?_cases hgap with ⟨ds, hcs, _⟩ | ⟨d, ds, hd, hcs, _⟩
      · cases hcs
      · cases hcs
        cases hd

end Words

end RowRecipe.Migration
