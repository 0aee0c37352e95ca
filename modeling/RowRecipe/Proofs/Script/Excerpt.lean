import RowRecipe.Proofs.Grammar.Excerpt
import RowRecipe.Proofs.Script.Promotion
import RowRecipe.Proofs.Script.Reading

/-!
# Excerpts of scripts

A stretch of a text has the same lexemes in the text as it has alone, in other places. So it has the same
statements, and its literals have the same values.
-/

namespace RowRecipe.Script

open Grammar

/-! ## Places -/

namespace Place

variable {p q : Place}

/-- The place in a whole text of what is at the place `q` in a stretch of it that starts at the place `p`. -/
def within (p q : Place) : Place :=
  { offset := p.offset + q.offset, line := p.line - 1 + q.line
    column := if q.line = 1 then p.column - 1 + q.column else q.column }

theorem next_line_pos (h : 1 ≤ q.line) (c : Char) : 1 ≤ (q.next c).line := by
  unfold next
  split
  · exact Nat.le_add_left 1 _
  · exact h

theorem within_next (h : 1 ≤ q.line) (c : Char) : (p.within q).next c = p.within (q.next c) := by
  unfold next
  by_cases hc : c = '\n'
  · have hline : q.line ≠ 0 := by omega
    simp [hc, within, hline, Nat.add_assoc]
  · rw [if_neg hc, if_neg hc]
    by_cases hq : q.line = 1 <;> simp [within, hq, Nat.add_assoc]

theorem within_after (h : 1 ≤ q.line) (cs : List Char) : (p.within q).after cs = p.within (q.after cs) := by
  induction cs generalizing q with
  | nil => rfl
  | cons c cs ih =>
    have hrest := ih (next_line_pos h c)
    rwa [← within_next h] at hrest

theorem after_line_pos (h : 1 ≤ q.line) (cs : List Char) : 1 ≤ (q.after cs).line := by
  rw [after_line]
  omega

theorem after_column_pos (h : 1 ≤ q.column) (cs : List Char) : 1 ≤ (q.after cs).column := by
  induction cs generalizing q with
  | nil => exact h
  | cons c cs ih =>
    refine ih (q := q.next c) ?_
    unfold next
    split
    · exact Nat.le_refl 1
    · exact Nat.le_add_left 1 _

/-- A stretch of a text starts where the text before it ends. -/
theorem within_origin (cs : List Char) : (origin.after cs).within origin = origin.after cs := by
  have hline := after_line_pos (q := origin) (Nat.le_refl 1) cs
  have hcolumn := after_column_pos (q := origin) (Nat.le_refl 1) cs
  have hlines : (origin.after cs).line - 1 + 1 = (origin.after cs).line := by omega
  have hcolumns : (origin.after cs).column - 1 + 1 = (origin.after cs).column := by omega
  simp only [within, origin, Nat.add_zero, if_true] at *
  rw [hlines, hcolumns]

end Place

/-! ## Statements -/

variable {p : Place}

def Lexeme.within (p : Place) (l : Lexeme) : Lexeme :=
  { l with start := p.within l.start }

@[simp] theorem Lexeme.within_terminal (l : Lexeme) : (l.within p).terminal = l.terminal := rfl

@[simp] theorem Lexeme.within_text (l : Lexeme) : (l.within p).text = l.text := rfl

theorem Lexeme.within_stop (l : Lexeme) : (l.within p).stop = p.offset + l.stop :=
  Nat.add_assoc _ _ _

/-- The lexemes of a stretch of a text are those of the stretch alone, in other places. -/
theorem locate_within {q : Place} (h : 1 ≤ q.line) (ps : List Piece) :
    locate (p.within q) ps = (locate q ps).map (Lexeme.within p) := by
  induction ps generalizing q with
  | nil => rfl
  | cons x xs ih =>
    rw [locate, locate, List.map_append, Place.within_after h, ih (Place.after_line_pos h _)]
    cases x.terminal? <;> rfl

theorem locate_after (cs : List Char) (ps : List Piece) :
    locate (Place.origin.after cs) ps = (locate .origin ps).map (Lexeme.within (Place.origin.after cs)) := by
  rw [← locate_within (Nat.le_refl 1), Place.within_origin]

def Property.within (p : Place) (x : Property) : Property :=
  ⟨x.key.within p, x.value.within p⟩

def Argument.within (p : Place) : Argument → Argument
  | columns first more => columns (first.within p) (more.map (Lexeme.within p))
  | texts first more => texts (first.within p) (more.map (Lexeme.within p))
  | numbers first more => numbers (first.within p) (more.map (Lexeme.within p))
  | quantity kind l => quantity kind (l.within p)
  | malformed l => malformed (l.within p)
  | word l => word (l.within p)
  | properties opening entries closing =>
    properties (opening.within p) (entries.map (Property.within p)) (closing.within p)

def Statement.within (p : Place) : Statement → Statement
  | version number => version (number.within p)
  | load names => load (names.map (Lexeme.within p))
  | directive name args => directive (name.within p) (args.map (Argument.within p))

theorem joined_within (ls : List Lexeme) :
    joined (ls.map (Lexeme.within p)) = ((joined ls).1.map (Lexeme.within p), (joined ls).2.map (Lexeme.within p)) := by
  fun_induction joined ls with
  | case1 comma l ls hcomma r ih =>
    have hcomma : (comma.within p).terminal = .comma := hcomma
    rw [List.map_cons, List.map_cons, joined_comma hcomma, ih]
    rfl
  | case2 comma l ls hcomma =>
    refine joined_of_head ?_
    rintro _ ⟨⟩
    exact hcomma
  | case3 ls hshort =>
    rcases ls with _ | ⟨comma, _ | ⟨l, ls⟩⟩
    · rfl
    · rfl
    · exact (hshort comma l ls rfl).elim

theorem propertiesOf_within (ls : List Lexeme) :
    propertiesOf (ls.map (Lexeme.within p)) =
      ((propertiesOf ls).1.map (Property.within p), (propertiesOf ls).2.map (Lexeme.within p)) := by
  fun_induction propertiesOf ls with
  | case1 => rfl
  | case2 l ls hclose => exact propertiesOf_closing hclose
  | case3 l ls _ hcomma ih =>
    have hcomma : (l.within p).terminal = .comma := hcomma
    rw [List.map_cons, propertiesOf_comma hcomma, ih]
  | case4 l hclose hcomma e value ls r ih =>
    have hclose : (l.within p).terminal ≠ .closing := hclose
    have hcomma : (l.within p).terminal ≠ .comma := hcomma
    rw [List.map_cons, List.map_cons, List.map_cons, propertiesOf_entry hclose hcomma, ih]
    rfl
  | case5 l hclose hcomma ls hshort =>
    rcases ls with _ | ⟨e, _ | ⟨value, ls⟩⟩
    · rw [List.map_cons, List.map_nil, propertiesOf.eq_def]
      simp [hclose, hcomma]
    · rw [List.map_cons, List.map_cons, List.map_nil, propertiesOf.eq_def]
      simp [hclose, hcomma]
    · exact (hshort e value ls rfl).elim

theorem Argument.starting_within (l : Lexeme) (more : List Lexeme) :
    Argument.starting (l.within p) (more.map (Lexeme.within p)) = (Argument.starting l more).within p := by
  rw [starting, starting, Lexeme.within_terminal]
  cases l.terminal <;> rfl

theorem argumentsOf_unclosed {l : Lexeme} {ls : List Lexeme} (h : l.terminal = .opening)
    (hrest : (propertiesOf ls).2 = []) : argumentsOf (l :: ls) = [] := by
  rw [argumentsOf.eq_def]
  simp only [h]
  split
  next => rfl
  next hcons =>
    rw [hrest] at hcons
    cases hcons

theorem argumentsOf_within (ls : List Lexeme) :
    argumentsOf (ls.map (Lexeme.within p)) = (argumentsOf ls).map (Argument.within p) := by
  induction hn : ls.length using Nat.strong_induction_on generalizing ls with
  | _ n ih =>
    subst hn
    cases ls with
    | nil =>
      rw [List.map_nil, argumentsOf_nil]
      rfl
    | cons l ls =>
      rw [List.map_cons]
      by_cases hopen : l.terminal = .opening
      · have hopen' : (l.within p).terminal = .opening := hopen
        have hrest' := congrArg Prod.snd (propertiesOf_within (p := p) ls)
        cases hrest : (propertiesOf ls).2 with
        | nil =>
          rw [hrest] at hrest'
          rw [argumentsOf_unclosed hopen hrest, argumentsOf_unclosed hopen' hrest']
          rfl
        | cons closing rest =>
          have hlen := propertiesOf_length ls
          rw [hrest] at hlen hrest'
          rw [argumentsOf_opening hopen hrest, argumentsOf_opening hopen' hrest', ih _ (Nat.lt_succ_of_lt hlen) rest rfl,
            propertiesOf_within]
          rfl
      · have hopen' : (l.within p).terminal ≠ .opening := hopen
        cases hlisted : l.terminal.isListed with
        | true =>
          have hlisted' : (l.within p).terminal.isListed = true := hlisted
          rw [argumentsOf_listed hlisted, argumentsOf_listed hlisted', joined_within,
            ih _ (Nat.lt_succ_of_le (joined_length ls)) _ rfl, Argument.starting_within]
          rfl
        | false =>
          have hlisted' : (l.within p).terminal.isListed = false := hlisted
          rw [argumentsOf_single hlisted hopen, argumentsOf_single hlisted' hopen', ih _ (Nat.lt_succ_self _) _ rfl,
            List.map_cons, ← Argument.starting_within]
          rfl

theorem Statement.ofLexemes?_within (ls : List Lexeme) :
    Statement.ofLexemes? (ls.map (Lexeme.within p)) = (Statement.ofLexemes? ls).map (Statement.within p) := by
  cases ls with
  | nil => rfl
  | cons l ls =>
    rw [List.map_cons, ofLexemes?, ofLexemes?, Lexeme.within_terminal]
    split
    · have hversion : (ls.map (Lexeme.within p)).find? (·.terminal == .version) =
          (ls.find? (·.terminal == .version)).map (Lexeme.within p) := List.find?_map
      rw [hversion]
      cases ls.find? (·.terminal == .version) with
      | none =>
        have hnames : (ls.map (Lexeme.within p)).filter (·.terminal == .name) =
            (ls.filter (·.terminal == .name)).map (Lexeme.within p) := List.filter_map
        simp [Statement.within, hnames]
      | some number => rfl
    · simp [Statement.within, argumentsOf_within]

theorem splitOnP_within (ls : List Lexeme) :
    (ls.map (Lexeme.within p)).splitOnP (·.terminal == .separator) =
      (ls.splitOnP (·.terminal == .separator)).map (List.map (Lexeme.within p)) := by
  induction ls with
  | nil => rfl
  | cons l ls ih =>
    rw [List.map_cons, List.splitOnP_cons_eq_if_modifyHead, List.splitOnP_cons_eq_if_modifyHead,
      Lexeme.within_terminal, ih]
    split
    · rfl
    · cases ls.splitOnP (·.terminal == .separator) <;> rfl

theorem statements_within (ls : List Lexeme) :
    (ofLexemes (ls.map (Lexeme.within p))).statements = (ofLexemes ls).statements.map (Statement.within p) := by
  simp only [ofLexemes, splitOnP_within, List.filterMap_map, List.map_filterMap]
  exact congrArg (List.filterMap · _) (funext Statement.ofLexemes?_within)

/-! ## Lexemes of a statement -/

theorem mem_of_mem_joined {l : Lexeme} {ls : List Lexeme} : l ∈ (joined ls).1 ∨ l ∈ (joined ls).2 → l ∈ ls := by
  fun_induction joined ls with
  | case1 comma k ls _ r ih =>
    simp only [List.mem_cons]
    rintro ((rfl | h) | h)
    · exact .inr (.inl rfl)
    · exact .inr (.inr (ih (.inl h)))
    · exact .inr (.inr (ih (.inr h)))
  | case2 => simp
  | case3 => simp

theorem propertiesOf_suffix (ls : List Lexeme) : (propertiesOf ls).2 <:+ ls := by
  fun_induction propertiesOf ls with
  | case1 => exact List.suffix_rfl
  | case2 => exact List.suffix_rfl
  | case3 l ls _ _ ih => exact ih.trans (List.suffix_cons l ls)
  | case4 l _ _ e value ls r ih =>
    exact ih.trans ((List.suffix_cons value ls).trans ((List.suffix_cons e _).trans (List.suffix_cons l _)))
  | case5 => exact List.suffix_rfl

theorem Argument.last_starting_mem (l : Lexeme) (more : List Lexeme) :
    (Argument.starting l more).last ∈ l :: more := by
  rw [starting]
  cases l.terminal with
  | column | text | number => exact List.getLastD_mem_cons
  | _ => exact List.mem_cons_self

/-- An argument that starts with a lexeme and takes what else it is made of from the lexemes behind it. -/
inductive Argument.MadeOf (l : Lexeme) (ks : List Lexeme) : Argument → Prop
  | starting {more : List Lexeme} (h : more ⊆ ks) : MadeOf l ks (.starting l more)
  | properties {closing : Lexeme} (h : closing ∈ ks) : MadeOf l ks (.properties l (propertiesOf ks).1 closing)

theorem exists_madeOf {a : Argument} {ls : List Lexeme} (h : a ∈ argumentsOf ls) :
    ∃ l ks, l :: ks ⊆ ls ∧ a.MadeOf l ks := by
  induction hn : ls.length using Nat.strong_induction_on generalizing ls with
  | _ n ih =>
    subst hn
    cases ls with
    | nil =>
      rw [argumentsOf_nil] at h
      cases h
    | cons l ls =>
      -- An argument behind the first one is made of lexemes of the rest, so only the first one is new.
      have behind {rest : List Lexeme} (hsub : rest ⊆ ls) (hlen : rest.length ≤ ls.length)
          (ha : a ∈ argumentsOf rest) : ∃ k ks, k :: ks ⊆ l :: ls ∧ a.MadeOf k ks := by
        obtain ⟨k, ks, hks, hmade⟩ := ih _ (Nat.lt_succ_of_le hlen) ha rfl
        exact ⟨k, ks, List.subset_cons_of_subset l (List.Subset.trans hks hsub), hmade⟩
      by_cases hopen : l.terminal = .opening
      · cases hrest : (propertiesOf ls).2 with
        | nil =>
          rw [argumentsOf_unclosed hopen hrest] at h
          cases h
        | cons closing rest =>
          have hsuffix := propertiesOf_suffix ls
          rw [hrest] at hsuffix
          rw [argumentsOf_opening hopen hrest, List.mem_cons] at h
          rcases h with rfl | h
          · exact ⟨l, ls, List.Subset.refl _, .properties (hsuffix.subset List.mem_cons_self)⟩
          · have hlen := hsuffix.length_le
            rw [List.length_cons] at hlen
            exact behind (fun k hk => hsuffix.subset (List.mem_cons_of_mem closing hk)) (by omega) h
      · cases hlisted : l.terminal.isListed with
        | true =>
          rw [argumentsOf_listed hlisted, List.mem_cons] at h
          rcases h with rfl | h
          · exact ⟨l, ls, List.Subset.refl _, .starting fun k hk => mem_of_mem_joined (.inl hk)⟩
          · exact behind (fun k hk => mem_of_mem_joined (.inr hk)) (joined_length ls) h
        | false =>
          rw [argumentsOf_single hlisted hopen, List.mem_cons] at h
          rcases h with rfl | h
          · exact ⟨l, ls, List.Subset.refl _, .starting (List.nil_subset ls)⟩
          · exact behind (List.Subset.refl ls) (Nat.le_refl _) h

/-- An argument ends with one of the lexemes it is made of. -/
theorem last_mem {a : Argument} {ls : List Lexeme} (h : a ∈ argumentsOf ls) : a.last ∈ ls := by
  obtain ⟨l, ks, hsub, hmade⟩ := exists_madeOf h
  apply hsub
  cases hmade with
  | starting hmore => exact List.cons_subset_cons l hmore (Argument.last_starting_mem l _)
  | properties hclosing => exact List.mem_cons_of_mem l hclosing

/-- Every lexeme ends within the text. -/
theorem stop_le_of_mem_locate {q : Place} {ps : List Piece} {l : Lexeme} (h : l ∈ locate q ps) :
    l.stop ≤ q.offset + (Piece.textOf ps).length := by
  induction ps generalizing q with
  | nil => cases h
  | cons x xs ih =>
    rw [Piece.textOf_cons, List.length_append]
    rw [locate, List.mem_append] at h
    rcases h with h | h
    · rw [Option.mem_toList, Option.map_eq_some_iff] at h
      obtain ⟨t, -, rfl⟩ := h
      simp only [Lexeme.stop, String.length_ofList]
      omega
    · have hl := ih h
      rw [Place.after_offset] at hl
      omega

/-- Whether a directive, or its last arguments, ends within the first `n` characters. -/
def Statement.EndsBy (n : Nat) : Statement → Prop
  | directive name args => name.stop ≤ n ∧ ∀ a ∈ args, a.last.stop ≤ n
  | _ => True

/-- Between separators there are lexemes of the script that are none. -/
theorem of_mem_splitOnP {ls ks : List Lexeme} (h : ks ∈ ls.splitOnP (·.terminal == .separator)) {l : Lexeme}
    (hl : l ∈ ks) : l ∈ ls ∧ l.terminal ≠ .separator := by
  induction ls generalizing ks with
  | nil =>
    rw [List.splitOnP_nil, List.mem_singleton] at h
    subst h
    cases hl
  | cons k ls ih =>
    rw [List.splitOnP_cons_eq_if_modifyHead] at h
    obtain ⟨first, more, hsplit⟩ := List.exists_cons_of_ne_nil (List.splitOnP_ne_nil (·.terminal == .separator) ls)
    rw [hsplit] at h ih
    split at h
    next =>
      rcases List.mem_cons.mp h with rfl | h
      · cases hl
      · exact (ih h hl).imp_left (List.mem_cons_of_mem k)
    next hk =>
      rw [List.modifyHead_cons, List.mem_cons] at h
      rcases h with rfl | h
      · rcases List.mem_cons.mp hl with rfl | hl
        · exact ⟨List.mem_cons_self, by simpa using hk⟩
        · exact (ih List.mem_cons_self hl).imp_left (List.mem_cons_of_mem k)
      · exact (ih (List.mem_cons_of_mem first h) hl).imp_left (List.mem_cons_of_mem k)

/-- Every element that is no separator stands between separators. -/
theorem exists_mem_splitOnP {α : Type} {p : α → Bool} {ls : List α} {l : α} (hl : l ∈ ls) (hsep : p l = false) :
    ∃ ks ∈ ls.splitOnP p, l ∈ ks := by
  induction ls with
  | nil => cases hl
  | cons k ls ih =>
    rw [List.splitOnP_cons_eq_if_modifyHead]
    obtain ⟨first, more, hsplit⟩ := List.exists_cons_of_ne_nil (List.splitOnP_ne_nil p ls)
    rw [hsplit] at ih ⊢
    split
    next hk =>
      rcases List.mem_cons.mp hl with rfl | hl
      · rw [hsep] at hk
        cases hk
      · obtain ⟨ks, hks, hmem⟩ := ih hl
        exact ⟨ks, List.mem_cons_of_mem [] hks, hmem⟩
    next =>
      rw [List.modifyHead_cons]
      rcases List.mem_cons.mp hl with rfl | hl
      · exact ⟨_, List.mem_cons_self, List.mem_cons_self⟩
      · obtain ⟨ks, hks, hmem⟩ := ih hl
        rcases List.mem_cons.mp hks with rfl | hks
        · exact ⟨_, List.mem_cons_self, List.mem_cons_of_mem k hmem⟩
        · exact ⟨ks, List.mem_cons_of_mem _ hks, hmem⟩

theorem endsBy_of_mem_statements {n : Nat} {ls : List Lexeme} (h : ∀ l ∈ ls, l.stop ≤ n) {st : Statement}
    (hst : st ∈ (ofLexemes ls).statements) : st.EndsBy n := by
  obtain ⟨ks, hks, hst⟩ := List.mem_filterMap.mp hst
  have hstop : ∀ l ∈ ks, l.stop ≤ n := fun l hl => h l (of_mem_splitOnP hks hl).1
  cases ks with
  | nil => cases hst
  | cons k ks =>
    rw [Statement.ofLexemes?] at hst
    split at hst
    next =>
      split at hst <;> cases hst <;> trivial
    next =>
      cases hst
      exact ⟨hstop k List.mem_cons_self, fun a ha => hstop _ (List.mem_cons_of_mem k (last_mem ha))⟩

/-! ## Meanings -/

section

variable {before cs after : List Char}

/-- A slice of a stretch is a slice of the whole text. -/
theorem slice_within (before after : List Char) (start : Nat) {stop : Nat} (h : stop ≤ cs.length) :
    Text.slice (String.ofList (before ++ cs ++ after)) (before.length + start) (before.length + stop) =
      Text.slice (String.ofList cs) start stop := by
  have hdrop : (before ++ cs ++ after).drop (before.length + start) = (cs ++ after).drop start := by
    rw [List.append_assoc, ← List.drop_drop, List.drop_left]
  have hlen : before.length + stop - (before.length + start) = stop - start := by omega
  have htake : ((cs ++ after).drop start).take (stop - start) = (cs.drop start).take (stop - start) := by
    rcases Nat.le_total start cs.length with hle | hle
    · rw [List.drop_append_of_le_length hle, List.take_append_of_le_length]
      rw [List.length_drop]
      omega
    · have hzero : stop - start = 0 := by omega
      rw [hzero, List.take_zero, List.take_zero]
  rw [Text.slice, Text.slice, String.toList_ofList, String.toList_ofList, hdrop, hlen, htake]

theorem slice_all (cs : List Char) : Text.slice (String.ofList cs) 0 cs.length = String.ofList cs := by
  rw [Text.slice, String.toList_ofList, List.drop_zero, Nat.sub_zero, List.take_length]

/-- An argument has the token in the whole text that it has in the stretch alone. -/
theorem token_within {p : Place} (hp : p.offset = before.length) {a : Argument} (ha : a.last.stop ≤ cs.length)
    {t : Token} :
    (a.within p).token (String.ofList (before ++ cs ++ after)) = .ok t ↔ a.token (String.ofList cs) = .ok t := by
  have items {α : Type} (one : α → Meaning) (several : List α → Meaning) (value : Lexeme → α)
      (hvalue : ∀ l, value (l.within p) = value l) (first : Lexeme) (more : List Lexeme) :
      Token.ofItems one several value (first.within p) (more.map (Lexeme.within p)) =
        Token.ofItems one several value first more := by
    have hvalues : (more.map (Lexeme.within p)).map value = more.map value := by
      rw [List.map_map]
      exact List.map_congr_left fun l _ => hvalue l
    have htexts : (more.map (Lexeme.within p)).map Lexeme.text = more.map Lexeme.text := by
      rw [List.map_map]
      rfl
    simp only [Token.ofItems, List.isEmpty_map, List.map_cons, hvalue, hvalues, htexts, Lexeme.within_text]
  cases a with
  | columns first more =>
    have h := items .columnName .columnNameList Lexeme.columnName (fun _ => rfl) first more
    rw [Argument.within, Argument.token_columns, Argument.token_columns, h]
  | texts first more =>
    have h := items .text .textList Lexeme.unquoted (fun _ => rfl) first more
    rw [Argument.within, Argument.token_texts, Argument.token_texts, h]
  | numbers first more =>
    have h := items .numeric .numericList Lexeme.numeric (fun _ => rfl) first more
    rw [Argument.within, Argument.token_numbers, Argument.token_numbers, h]
  | quantity kind l => rw [Argument.within, Argument.token_quantity, Argument.token_quantity, Lexeme.within_text]
  | malformed l => exact ⟨nofun, nofun⟩
  | word l => rfl
  | properties opening entries closing =>
    have hentries : (entries.map (Property.within p)).map Property.entry = entries.map Property.entry := by
      rw [List.map_map]
      rfl
    have hslice := slice_within before after opening.start.offset (show closing.stop ≤ cs.length from ha)
    have hstart : (opening.within p).start.offset = before.length + opening.start.offset := by
      rw [← hp]
      rfl
    have hstop : (closing.within p).stop = before.length + closing.stop := by
      rw [← hp]
      exact closing.within_stop
    simp only [Argument.within, Argument.token_properties, hentries, hstart, hstop, hslice]

theorem tokens_within {p : Place} (hp : p.offset = before.length) {args : List Argument}
    (ha : ∀ a ∈ args, a.last.stop ≤ cs.length) {ts : List Token} :
    (args.map (Argument.within p)).mapM (Argument.token (String.ofList (before ++ cs ++ after))) = .ok ts ↔
      args.mapM (Argument.token (String.ofList cs)) = .ok ts := by
  induction args generalizing ts with
  | nil => simp only [List.map_nil, List.mapM_nil]
  | cons a args ih =>
    rw [List.forall_mem_cons] at ha
    rw [List.map_cons, Argument.mapM_token_cons, Argument.mapM_token_cons]
    simp only [token_within hp ha.1, ih ha.2]

end

end RowRecipe.Script
