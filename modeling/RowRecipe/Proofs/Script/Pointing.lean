import RowRecipe.Proofs.Script.Excerpt
import RowRecipe.Script.Tree

/-!
# Places in the source

Lines and columns are counted while a text is cut into pieces, through strings, comments and gaps. Read off
the lines of the text instead, they address the text that stands there. An error carries its line and the
text at its place, or it stands at the end; the tokens of a tree stand at their places.
-/

namespace RowRecipe

open Grammar Script

namespace Text

variable {cs before behind : List Char} {line column : Nat}

/-- The text from a line and a column on, both counted from one. -/
def textFrom? (cs : List Char) : Nat → Nat → Option (List Char)
  | line + 1, column + 1 =>
    match (lines cs).drop line with
    | l :: ls => if column ≤ l.length then some (unlines (l.drop column :: ls)) else none
    | [] => none
  | _, _ => none

theorem textFrom?_start (cs : List Char) : textFrom? cs 1 1 = some cs := by
  obtain ⟨l, ls, hlines⟩ := List.exists_cons_of_ne_nil (lines_ne_nil cs)
  have hcs := unlines_lines cs
  rw [hlines] at hcs
  simp [textFrom?, hlines, hcs]

theorem textFrom?_newline (cs : List Char) (line column : Nat) :
    textFrom? ('\n' :: cs) (line + 2) column = textFrom? cs (line + 1) column := by
  cases column <;> simp [textFrom?, lines]

theorem lines_cons_of_ne {c : Char} (hc : c ≠ '\n') {l : List Char} {ls : List (List Char)}
    (hlines : lines cs = l :: ls) : lines (c :: cs) = (c :: l) :: ls := by
  simp [lines, hc, hlines]

theorem textFrom?_first {c : Char} (hc : c ≠ '\n') (cs : List Char) (column : Nat) :
    textFrom? (c :: cs) 1 (column + 2) = textFrom? cs 1 (column + 1) := by
  obtain ⟨l, ls, hlines⟩ := List.exists_cons_of_ne_nil (lines_ne_nil cs)
  simp [textFrom?, hlines, lines_cons_of_ne hc hlines]

theorem textFrom?_later {c : Char} (hc : c ≠ '\n') (cs : List Char) (line column : Nat) :
    textFrom? (c :: cs) (line + 2) column = textFrom? cs (line + 2) column := by
  obtain ⟨l, ls, hlines⟩ := List.exists_cons_of_ne_nil (lines_ne_nil cs)
  cases column <;> simp [textFrom?, hlines, lines_cons_of_ne hc hlines]

/-- A line with something from it on is a line of the text. -/
theorem exists_line_of_textFrom? (h : textFrom? cs line column = some behind) :
    1 ≤ line ∧ ∃ l, (lines cs)[line - 1]? = some l := by
  match line, column with
  | 0, _ => simp [textFrom?] at h
  | _ + 1, 0 => simp [textFrom?] at h
  | line + 1, column + 1 =>
    refine ⟨by omega, ?_⟩
    simp only [textFrom?] at h
    split at h
    next l ls hdrop =>
      have hline := congrArg List.head? hdrop
      rw [List.head?_drop] at hline
      exact ⟨l, hline⟩
    next => cases h

end Text

namespace Script

/-! ## Places -/

namespace Place

theorem after_cons (c : Char) (cs : List Char) :
    origin.after (c :: cs) = (origin.next c).within (origin.after cs) := by
  have hnext : (origin.next c).within origin = origin.next c := within_origin [c]
  rw [← within_after (Nat.le_refl 1), hnext]
  rfl

/-- A character in front of a text moves the places of the text, and what they address stays. -/
theorem textFrom?_within {q : Place} (hline : 1 ≤ q.line) (hcolumn : 1 ≤ q.column) (c : Char) (cs : List Char) :
    Text.textFrom? (c :: cs) ((origin.next c).within q).line ((origin.next c).within q).column =
      Text.textFrom? cs q.line q.column := by
  obtain ⟨line, hline⟩ : ∃ n, q.line = n + 1 := ⟨q.line - 1, by omega⟩
  obtain ⟨column, hcolumn⟩ : ∃ n, q.column = n + 1 := ⟨q.column - 1, by omega⟩
  by_cases hc : c = '\n'
  · have hline' : ((origin.next c).within q).line = line + 2 := by
      simp only [within, next, origin, if_pos hc]
      omega
    have hcolumn' : ((origin.next c).within q).column = column + 1 := by
      simp only [within, next, origin, if_pos hc]
      split <;> omega
    rw [hline', hcolumn', hline, hcolumn, hc]
    apply Text.textFrom?_newline
  · have hline' : ((origin.next c).within q).line = line + 1 := by
      simp only [within, next, origin, if_neg hc]
      omega
    rw [hline', hline, hcolumn]
    -- Only the columns of the line that the character stands in move.
    cases line with
    | zero =>
      have hcolumn' : ((origin.next c).within q).column = column + 2 := by
        simp only [within, next, origin, if_neg hc]
        split <;> omega
      rw [hcolumn']
      apply Text.textFrom?_first hc
    | succ line =>
      have hcolumn' : ((origin.next c).within q).column = column + 1 := by
        simp only [within, next, origin, if_neg hc]
        split <;> omega
      rw [hcolumn']
      apply Text.textFrom?_later hc

/-- The place behind a stretch of a text addresses what stands behind it. -/
theorem textFrom?_after (before behind : List Char) :
    Text.textFrom? (before ++ behind) (origin.after before).line (origin.after before).column = some behind := by
  induction before with
  | nil => exact Text.textFrom?_start behind
  | cons c before ih =>
    have hline := after_line_pos (q := origin) (Nat.le_refl 1) before
    have hcolumn := after_column_pos (q := origin) (Nat.le_refl 1) before
    rw [after_cons, List.cons_append, textFrom?_within hline hcolumn, ih]

example : Text.textFrom? "a 'x\ny' b".toList 2 4 = some ['b'] := by decide

end Place

end Script

/-! ## Errors -/

variable {source : String}

/-- Whether a text stands at a line and a column. -/
def Text.StandsAt (cs : List Char) (line column : Nat) (text : List Char) : Prop :=
  ∃ behind, textFrom? cs line column = some (text ++ behind)

/-- An error that points into a text: it carries its line without the blanks at the right end, and its
literal stands at its place, or it has none and stands at the end of the text. -/
structure ParseError.PointsInto (e : ParseError) (source : String) : Prop where
  line_pos : 1 ≤ e.line
  context : ∃ l, (Text.lines source.toList)[e.line - 1]? = some l ∧
    e.context = some (String.ofList (Text.trimRight l))
  literal : ∀ t, e.literal = some t → Text.StandsAt source.toList e.line e.column t.toList
  atEnd : e.literal = none → Text.textFrom? source.toList e.line e.column = some []

theorem ParseError.PointsInto.of_textFrom? {e : ParseError} {behind : List Char}
    (h : Text.textFrom? source.toList e.line e.column = some behind)
    (hcontext : e.context = Text.lineAt? source e.line) (hliteral : ∀ t, e.literal = some t → t.toList <+: behind)
    (hend : e.literal = none → behind = []) : e.PointsInto source := by
  obtain ⟨hpos, l, hl⟩ := Text.exists_line_of_textFrom? h
  refine ⟨hpos, ⟨l, hl, ?_⟩, ?_, ?_⟩
  · have hline : e.line ≠ 0 := by omega
    rw [hcontext, Text.lineAt?, if_neg hline, hl]
    rfl
  · intro t ht
    obtain ⟨rest, hrest⟩ := hliteral t ht
    exact ⟨rest, by rw [h, hrest]⟩
  · intro hnone
    rw [h, hend hnone]

namespace Script

/-- Scanning stops in front of a rest of the text. -/
theorem rest_suffix_of_scan {s : State} {cs : List Char} {stop : Stop} (h : scan s cs = .error stop) :
    stop.rest <:+ cs := by
  fun_induction scan s cs with
  | case1 => cases h
  | case2 =>
    cases h
    exact List.suffix_rfl
  | case3 =>
    cases h
    exact List.suffix_rfl
  | case4 => cases h
  | case5 s c cs p s' rest hstep stop' hstop ih =>
    cases h
    have hrest : rest <:+ c :: cs := ⟨p.text, (s.step?_of hstep).2⟩
    exact (ih hstop).trans hrest

/-- The error of a text on which scanning stopped points to where it stopped. -/
theorem pointsInto_diagnosis {stop : Stop} (h : stop.rest <:+ source.toList) :
    (diagnosis source stop).PointsInto source := by
  obtain ⟨before, hsource⟩ := h
  have htake : source.toList.take (source.length - stop.rest.length) = before := by
    rw [← String.length_toList, ← hsource]
    simp
  have hplace := Place.textFrom?_after before stop.rest
  rw [hsource] at hplace
  unfold diagnosis
  simp only [htake]
  split
  next hrest =>
    apply ParseError.PointsInto.of_textFrom? hplace rfl
    · intro t ht
      cases ht
    · intro _
      exact hrest
  next c cs hrest =>
    rw [hrest] at hplace
    split
    next r hcut =>
      obtain ⟨t, -, ht⟩ := List.exists_of_findSome?_eq_some hcut
      apply ParseError.PointsInto.of_textFrom? hplace rfl
      · rintro _ ⟨⟩
        rw [String.toList_ofList]
        exact ⟨r.2, (Terminal.cut?_of ht).2⟩
      · intro hnone
        cases hnone
    next =>
      apply ParseError.PointsInto.of_textFrom? hplace rfl
      · rintro _ ⟨⟩
        simp
      · intro hnone
        cases hnone

/-! ## Lexemes of a text -/

/-- A lexeme stands in the text at its place. -/
theorem exists_of_mem_locate {q : Place} {ps : List Piece} {l : Lexeme} (h : l ∈ locate q ps) :
    ∃ before behind, Piece.textOf ps = before ++ (l.text.toList ++ behind) ∧ l.start = q.after before := by
  induction ps generalizing q with
  | nil => cases h
  | cons x xs ih =>
    rw [locate, List.mem_append] at h
    rw [Piece.textOf_cons]
    rcases h with h | h
    · rw [Option.mem_toList, Option.map_eq_some_iff] at h
      obtain ⟨t, -, rfl⟩ := h
      exact ⟨[], Piece.textOf xs, by simp, rfl⟩
    · obtain ⟨before, behind, htext, hstart⟩ := ih h
      refine ⟨x.text ++ before, behind, by simp [htext], ?_⟩
      rw [hstart, Place.after_append]

/-- Whether a lexeme stands in a text at its place. -/
def Lexeme.StandsIn (l : Lexeme) (cs : List Char) : Prop :=
  Text.StandsAt cs l.start.line l.start.column l.text.toList

theorem standsIn_of_mem_locate {ps : List Piece} {l : Lexeme} (h : l ∈ locate .origin ps) :
    l.StandsIn (Piece.textOf ps) := by
  obtain ⟨before, behind, htext, hstart⟩ := exists_of_mem_locate h
  refine ⟨behind, ?_⟩
  rw [htext, hstart]
  apply Place.textFrom?_after

/-- The error of a lexeme that has no value points to the lexeme. -/
theorem pointsInto_refused {l : Lexeme} (h : l.StandsIn source.toList) (fault : ParseFault)
    (suggestion : Option String) : (l.refused source fault suggestion).PointsInto source := by
  obtain ⟨behind, hbehind⟩ := h
  apply ParseError.PointsInto.of_textFrom? hbehind rfl
  · rintro _ ⟨⟩
    simp
  · intro hnone
    cases hnone

/-! ## Lexemes of a tree -/

namespace Tree

variable {l k : Lexeme} {ls : List Lexeme} {rule : String} {ts : List Tree}

/-- A lexeme is in a tree. -/
inductive Holds (l : Lexeme) : Tree → Prop
  | leaf : Holds l (.leaf l)
  | node {rule : String} {ts : List Tree} {t : Tree} (ht : t ∈ ts) (h : Holds l t) : Holds l (.node rule ts)

theorem holds_leaf : Holds l (.leaf k) ↔ l = k := by
  constructor
  · rintro ⟨⟩
    rfl
  · rintro rfl
    exact .leaf

theorem holds_node : Holds l (.node rule ts) ↔ ∃ t ∈ ts, Holds l t := by
  constructor
  · rintro ⟨⟩
    exact ⟨_, ‹_›, ‹_›⟩
  · rintro ⟨t, ht, h⟩
    exact .node ht h

theorem holds_leaves : Holds l (.node rule (ls.map .leaf)) ↔ l ∈ ls := by
  simp [holds_node, holds_leaf]

end Tree

variable {l : Lexeme} {ls : List Lexeme}

/-- The lexemes of properties are among those the properties are made of. -/
theorem mem_of_mem_propertiesOf {x : Property} (h : x ∈ (propertiesOf ls).1) : x.key ∈ ls ∧ x.value ∈ ls := by
  fun_induction propertiesOf ls with
  | case1 => cases h
  | case2 => cases h
  | case3 k ls _ _ ih => exact (ih h).imp (List.mem_cons_of_mem k) (List.mem_cons_of_mem k)
  | case4 k _ _ e value ls r ih =>
    rcases List.mem_cons.mp h with rfl | h
    · simp
    · simp [ih h]
  | case5 => cases h

theorem Property.holds_tree {x : Property} : x.tree.Holds l ↔ l = x.key ∨ l = x.value := by
  simp [tree, Tree.holds_node, Tree.holds_leaf]

namespace Argument

theorem holds_items {single several : String} {first : Lexeme} {more : List Lexeme} :
    (itemsTree single several first more).Holds l ↔ l ∈ first :: more :=
  Tree.holds_leaves

theorem holds_starting {first : Lexeme} {more : List Lexeme} (h : (starting first more).tree.Holds l) :
    l ∈ first :: more := by
  rw [starting] at h
  split at h
  case h_1 | h_2 | h_3 => exact holds_items.mp h
  all_goals
    simp only [tree, Tree.holds_node, Tree.holds_leaf, List.mem_singleton, exists_eq_left] at h
    rw [h]
    exact List.mem_cons_self

/-- The lexemes of an argument are among those the argument is made of. -/
theorem mem_of_holds {a : Argument} (ha : a ∈ argumentsOf ls) (h : a.tree.Holds l) : l ∈ ls := by
  obtain ⟨k, ks, hsub, hmade⟩ := exists_madeOf ha
  apply hsub
  cases hmade with
  | starting hmore => exact List.cons_subset_cons k hmore (holds_starting h)
  | properties hclosing =>
    obtain ⟨t, ht, h⟩ := Tree.holds_node.mp h
    rcases List.mem_cons.mp ht with rfl | ht
    · simp [Tree.holds_leaf.mp h]
    · obtain ⟨x, hx, rfl⟩ := List.mem_map.mp ht
      have hentry := mem_of_mem_propertiesOf hx
      apply List.mem_cons_of_mem
      rcases Property.holds_tree.mp h with rfl | rfl
      · exact hentry.1
      · exact hentry.2

end Argument

theorem Statement.mem_of_holds {st : Statement} (hst : Statement.ofLexemes? ls = some st) (h : st.tree.Holds l) :
    l ∈ ls := by
  cases ls with
  | nil => cases hst
  | cons k ls =>
    rw [ofLexemes?] at hst
    split at hst
    next =>
      split at hst
      next number hnumber =>
        cases hst
        have hl : l ∈ [number] := Tree.holds_leaves.mp h
        rw [List.mem_singleton.mp hl]
        exact List.mem_cons_of_mem k (List.mem_of_find?_eq_some hnumber)
      next =>
        cases hst
        have hl := Tree.holds_leaves.mp h
        exact List.mem_cons_of_mem k (List.mem_of_mem_filter hl)
    next =>
      cases hst
      obtain ⟨t, ht, h⟩ := Tree.holds_node.mp h
      rcases List.mem_cons.mp ht with rfl | ht
      · simp [Tree.holds_leaf.mp h]
      · obtain ⟨a, ha, rfl⟩ := List.mem_map.mp ht
        exact List.mem_cons_of_mem k (Argument.mem_of_holds ha h)

/-- The lexemes of a tree are among those that the script is made of. -/
theorem mem_of_holds (h : (ofLexemes ls).tree.Holds l) : l ∈ ls := by
  obtain ⟨t, ht, h⟩ := Tree.holds_node.mp h
  obtain ⟨st, hst, rfl⟩ := List.mem_map.mp ht
  obtain ⟨ks, hks, hst⟩ := List.mem_filterMap.mp hst
  exact (of_mem_splitOnP hks (Statement.mem_of_holds hst h)).1

/-! ## Literals without a value -/

/-- Whether an error is that of a lexeme in a tree that has no value. -/
def Tree.Refused (source : String) (e : ParseError) (t : Tree) : Prop :=
  ∃ l fault suggestion, t.Holds l ∧ e = l.refused source fault suggestion

theorem Tree.Refused.node {e : ParseError} {t : Tree} {rule : String} {ts : List Tree} (h : t.Refused source e)
    (ht : t ∈ ts) : (Tree.node rule ts).Refused source e := by
  obtain ⟨l, fault, suggestion, hl, he⟩ := h
  exact ⟨l, fault, suggestion, .node ht hl, he⟩

variable {e : ParseError}

theorem Argument.refused_of_token {a : Argument} (h : a.token source = .error e) : a.tree.Refused source e := by
  have only {rule : String} (l : Lexeme) : (Tree.node rule [.leaf l]).Holds l := .node List.mem_cons_self .leaf
  cases a with
  | columns | texts | numbers | properties => cases h
  | word l =>
    rw [token.eq_def] at h
    dsimp only at h
    split at h <;> cases h
  | malformed l =>
    cases h
    exact ⟨l, _, _, only l, rfl⟩
  | quantity kind l =>
    have hl : (quantity kind l).tree.Holds l := by
      cases kind <;> exact only l
    rw [token.eq_def] at h
    dsimp only at h
    split at h
    · cases h
    · cases h
    · cases h
      exact ⟨l, _, _, hl, rfl⟩

theorem Argument.refused_of_mapM {args : List Argument} (h : args.mapM (token source) = .error e) :
    ∃ a ∈ args, a.tree.Refused source e := by
  induction args with
  | nil => cases h
  | cons a args ih =>
    rw [List.mapM_cons] at h
    cases ha : a.token source with
    | error e' =>
      rw [ha] at h
      cases h
      exact ⟨a, List.mem_cons_self, refused_of_token ha⟩
    | ok t =>
      rw [ha] at h
      cases hargs : args.mapM (token source) with
      | error e' =>
        rw [hargs] at h
        cases h
        obtain ⟨b, hb, hrefused⟩ := ih hargs
        exact ⟨b, List.mem_cons_of_mem a hb, hrefused⟩
      | ok ts =>
        rw [hargs] at h
        cases h

end Script

namespace Recipe

open Script

variable {e : ParseError}

/-- Adding a statement fails only at one of its lexemes. -/
theorem refused_of_extend {r : Recipe} {st : Statement} (h : extend source r st = .error e) :
    st.tree.Refused source e := by
  cases st with
  | version number => cases h
  | load names => cases h
  | directive name args =>
    cases hargs : args.mapM (Argument.token source) with
    | error e' =>
      rw [extend, hargs] at h
      cases h
      obtain ⟨a, ha, hrefused⟩ := Argument.refused_of_mapM hargs
      exact hrefused.node (List.mem_cons_of_mem _ (List.mem_map_of_mem ha))
    | ok ts =>
      rw [extend_directive r name hargs] at h
      cases h

theorem refused_of_foldlM {r : Recipe} {sts : List Statement} (h : sts.foldlM (extend source) r = .error e) :
    ∃ st ∈ sts, st.tree.Refused source e := by
  induction sts generalizing r with
  | nil => cases h
  | cons st sts ih =>
    rw [List.foldlM_cons] at h
    cases hst : extend source r st with
    | error e' =>
      rw [hst] at h
      cases h
      exact ⟨st, List.mem_cons_self, refused_of_extend hst⟩
    | ok r' =>
      rw [hst] at h
      obtain ⟨st', hst', hrefused⟩ := ih h
      exact ⟨st', List.mem_cons_of_mem st hst', hrefused⟩

/-- A script without a meaning has a lexeme without a value. -/
theorem refused_of_ofScript {script : Script} (h : ofScript script source = .error e) :
    script.tree.Refused source e := by
  obtain ⟨st, hst, hrefused⟩ := refused_of_foldlM h
  exact hrefused.node (List.mem_map_of_mem hst)

end Recipe

/-! ## Sources -/

theorem Script.pointsInto_of_read {e : ParseError} (h : Script.read source = .error e) : e.PointsInto source := by
  rw [Script.read, Script.lexemes] at h
  split at h
  next => cases h
  next stop hstop =>
    cases h
    exact pointsInto_diagnosis (rest_suffix_of_scan hstop)

/-- The lexemes of a tree stand in the source at their places. -/
theorem Script.standsIn_of_read {script : Script} {l : Lexeme} (h : Script.read source = .ok script)
    (hl : script.tree.Holds l) : l.StandsIn source.toList := by
  obtain ⟨ps, hps, rfl⟩ := Script.read_eq_ok.mp h
  rw [← hps.text]
  exact standsIn_of_mem_locate (mem_of_holds hl)

theorem Recipe.pointsInto_of_ofText {e : ParseError} (h : ofText source = .error e) : e.PointsInto source := by
  cases hread : Script.read source with
  | error e' =>
    rw [ofText, hread] at h
    cases h
    exact Script.pointsInto_of_read hread
  | ok script =>
    rw [ofText, hread] at h
    obtain ⟨l, fault, suggestion, hl, rfl⟩ := refused_of_ofScript h
    exact pointsInto_refused (Script.standsIn_of_read hread hl) fault suggestion

/-- A source is a recipe, or it has exactly one error, which points into it; and every lexeme of its tree
stands in it at the lexeme's line and column. -/
theorem Recipe.ofText_points (source : String) :
    ((∃ r, ofText source = .ok r) ∨ ∃ e, ofText source = .error e ∧ e.PointsInto source) ∧
      ∀ script, Script.read source = .ok script → ∀ l, script.tree.Holds l →
        Text.StandsAt source.toList l.start.line l.start.column l.text.toList := by
  refine ⟨?_, ?_⟩
  · cases h : ofText source with
    | ok r => exact .inl ⟨r, rfl⟩
    | error e => exact .inr ⟨e, rfl, pointsInto_of_ofText h⟩
  · intro script h l hl
    exact Script.standsIn_of_read h hl

end RowRecipe
