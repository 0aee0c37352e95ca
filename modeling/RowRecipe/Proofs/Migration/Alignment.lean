import RowRecipe.Proofs.Migration.Plain

/-!
# Slots of arguments

The grammar counts arguments, migration counts pieces. The two counts agree for words, numbers and quoted texts, which
are one piece each. Properties are one argument and two pieces, their opening word and their braces, so every argument
behind them is taken to a slot too far on.
-/

namespace RowRecipe.Migration

open Grammar

/-! ## Arguments of a statement -/

/-- An argument as the grammar counts them. The braces of properties are the first and the last one. -/
inductive Operand
  | word (w : List Char) (h : isBareWord w = true)
  | number (w : List Char) (h : numberCut? w = some (w, []))
  | quoted (w : List Char) (h : textCut? w = some (w, []))
  | properties (body : List Char) (h : '\x7d' ∉ body)

namespace Operand

def text : Operand → List Char
  | word w _ | number w _ | quoted w _ => w
  | properties body _ => "prop:".toList ++ '\x7b' :: (body ++ ['\x7d'])

def isProperties : Operand → Bool
  | properties _ _ => true
  | _ => false

/-- The number of pieces that migration sees. -/
def pieces (o : Operand) : Nat :=
  if o.isProperties then 2 else 1

/-- What becomes of an argument that is taken to a slot which accepts these variants. -/
def migrated (accepts : List TokenType) (o : Operand) : List Char :=
  match o with
  | word w _ => if TakesColumn accepts ∧ isTruth w = false then asColumn w else w
  | _ => o.text

end Operand

variable {known : Option Registry} {usage? : Option UsageDefinition} {n : Nat} {w rest : List Char}

theorem currentForm_number {accepts : List TokenType} (h : numberCut? w = some (w, [])) :
    currentForm accepts w = w := by
  obtain ⟨c, v, rfl⟩ := List.exists_cons_of_ne_nil (numberCut?_of h).1
  have hfirst := numberCut?_starts h
  rw [Bool.or_eq_true, beq_iff_eq] at hfirst
  apply currentForm_of_not_isNameStart
  · rcases hfirst with rfl | hdigit
    · decide
    · exact not_isNameStart_of_isDigit hdigit
  · cases v with
    | cons => rfl
    | nil =>
      rcases hfirst with rfl | hdigit
      · cases h
      · simp [isPunctuation, Text.isWordChar, Text.isAlphanumeric_of_isDigit hdigit]

/-- A number is a bare piece without slashes. -/
theorem bare_of_numberCut? (h : numberCut? w = some (w, [])) : (∀ c ∈ w, isBare c = true) ∧ '/' ∉ w := by
  have hcut : Terminal.number.cut? w = some (w, []) := h
  refine ⟨?_, slash_not_mem (t := .number) nofun nofun hcut⟩
  intro c hc
  rw [← Bool.not_eq_false]
  intro hbare
  have hlexical : isLexical c = false := by
    rw [← Bool.not_eq_true]
    intro hlexical
    rw [isBare_of_isLexical hlexical] at hbare
    cases hbare
  have hstart : Terminal.number.starts c = false := by
    rw [← Bool.not_eq_true]
    intro hstart
    rw [Terminal.isLexical_of_starts rfl hstart] at hlexical
    cases hlexical
  exact Terminal.not_mem_of_cut? (t := .number) nofun nofun hcut hlexical hstart hc

/-- A piece among arguments takes its current form, and the next one is counted. -/
theorem update_argument (hn : '\n' ∉ w) (hcut : pieceCut? (w ++ lineOf rest) = some (w, lineOf rest))
    (hslash : "//".toList.isPrefixOf w = false) (hsemi : w ≠ [';']) :
    update known (.argument usage? n) (w ++ rest) =
      currentForm (acceptsAt usage? n) w ++ update known (.argument usage? (n + 1)) rest := by
  rw [update_piece hn hcut hslash, Standing.updated, if_neg hsemi, Standing.next, if_neg hsemi]

theorem update_quoted (h : textCut? w = some (w, [])) (hn : '\n' ∉ w) :
    update known (.argument usage? n) (w ++ rest) = w ++ update known (.argument usage? (n + 1)) rest := by
  obtain ⟨c, v, rfl⟩ := List.exists_cons_of_ne_nil (textCut?_of h).1
  have hquote : c = '\'' ∨ c = '"' := by
    have hstart : (c == '\'' || c == '"') = true := Terminal.starts_of_cut? (t := .text) h
    simpa using hstart
  have hslash : "//".toList.isPrefixOf (c :: v) = false := by rcases hquote with rfl | rfl <;> rfl
  have hsemi : c :: v ≠ [';'] := by rcases hquote with rfl | rfl <;> simp
  have hcut : textCut? (c :: v ++ []) = some (c :: v, []) := by rwa [List.append_nil]
  rw [update_argument hn (pieceCut?_quoted hcut) hslash hsemi,
    currentForm_of_head (by rcases hquote with h | h <;> simp [h])]

/-- The opening word of properties is a piece, and their braces are another one. -/
theorem update_properties (h : '\x7d' ∉ w) (hn : '\n' ∉ w) :
    update known (.argument usage? n) ("prop:".toList ++ '\x7b' :: (w ++ ['\x7d']) ++ rest) =
      "prop:".toList ++ '\x7b' :: (w ++ ['\x7d']) ++ update known (.argument usage? (n + 2)) rest := by
  have hline : '\n' ∉ '\x7b' :: (w ++ ['\x7d']) := by simp [hn]
  have hcut : pieceCut? ('\x7b' :: (w ++ ['\x7d']) ++ lineOf rest) =
      some ('\x7b' :: (w ++ ['\x7d']), lineOf rest) := by
    simpa using pieceCut?_braces (l := lineOf rest) h
  have hbare : ∀ c ∈ "prop:".toList, isBare c = true := List.all_eq_true.mp (by decide)
  rw [List.append_assoc, update_bare (by simp) hbare (by decide) (by simp; decide), currentForm_prop,
    update_argument hline hcut rfl (by simp), currentForm_of_head (.inr (.inr rfl)), List.append_assoc]

/-- An argument is updated for the slot at the count, and the count goes on by its pieces. -/
theorem update_operand (o : Operand) (hn : '\n' ∉ o.text) (hrest : ∀ c ∈ rest.head?, isBare c = false) :
    update known (.argument usage? n) (o.text ++ rest) =
      o.migrated (acceptsAt usage? n) ++ update known (.argument usage? (n + o.pieces)) rest := by
  cases o with
  | word w h =>
    have hne : w ≠ [] := by
      rintro rfl
      cases h
    have hbare : ∀ c ∈ w, isBare c = true := fun c hc => isBare_of_isLexical (isLexical_of_isBareWord h c hc)
    have hform : currentForm (acceptsAt usage? n) w = (Operand.word w h).migrated (acceptsAt usage? n) := by
      rw [Operand.migrated]
      split
      next hcolumn => exact currentForm_column hcolumn.1 hcolumn.2 h
      next hcolumn => exact currentForm_word h hcolumn
    rw [← hform]
    exact update_bare hne hbare (slash_not_mem_of_isBareWord h) hrest
  | number w h =>
    obtain ⟨hbare, hslash⟩ := bare_of_numberCut? h
    have hform : (Operand.number w h).migrated (acceptsAt usage? n) = currentForm (acceptsAt usage? n) w :=
      (currentForm_number h).symm
    rw [hform]
    exact update_bare (numberCut?_of h).1 hbare hslash hrest
  | quoted w h => exact update_quoted h hn
  | properties body h => exact update_properties h fun hmem => hn (by simp [Operand.text, hmem])

/-! ## Statements -/

/-- An argument with the blanks in front of it. -/
structure Spaced where
  gap : List Char
  operand : Operand
  gap_ne : gap ≠ []
  gap_blank : ∀ c ∈ gap, Text.isBlank c = true

namespace Spaced

def text (a : Spaced) : List Char :=
  a.gap ++ a.operand.text

/-- An argument behind a single blank. -/
def behindBlank (o : Operand) : Spaced where
  gap := [' ']
  operand := o
  gap_ne := by decide
  gap_blank := List.forall_mem_singleton.mpr (by decide)

end Spaced

/-- The index of the slot to which the argument at an index is taken: properties before it count twice. -/
def slotIndex (as : List Spaced) (i : Nat) : Nat :=
  i + (as.take i).countP (·.operand.isProperties)

theorem slotIndex_succ (a : Spaced) (as : List Spaced) (i : Nat) :
    slotIndex (a :: as) (i + 1) = a.operand.pieces + slotIndex as i := by
  unfold slotIndex Operand.pieces
  rw [List.take_succ_cons, List.countP_cons]
  split <;> omega

/-- An argument is taken to its own slot if and only if no properties stand before it. -/
theorem slotIndex_eq_iff {as : List Spaced} {i : Nat} :
    slotIndex as i = i ↔ ∀ a ∈ as.take i, a.operand.isProperties = false := by
  rw [slotIndex, Nat.add_eq_left, List.countP_eq_zero]
  simp only [Bool.not_eq_true]

/-- What becomes of arguments where the slots accept these variants. -/
def migratedArguments (accepts : Nat → List TokenType) (as : List Spaced) : List Char :=
  as.zipIdx.flatMap fun a => a.1.gap ++ a.1.operand.migrated (accepts (slotIndex as a.2))

theorem migratedArguments_cons (accepts : Nat → List TokenType) (a : Spaced) (as : List Spaced) :
    migratedArguments accepts (a :: as) =
      a.gap ++ a.operand.migrated (accepts 0) ++ migratedArguments (fun i => accepts (a.operand.pieces + i)) as := by
  unfold migratedArguments
  rw [List.zipIdx_cons', List.flatMap_cons, List.flatMap_map]
  simp only [Prod.map_fst, Prod.map_snd, id_eq, slotIndex_succ]
  rfl

/-- A text of arguments starts with a blank, if there are any. -/
theorem bare_arguments (as : List Spaced) (hrest : ∀ c ∈ rest.head?, isBare c = false) :
    ∀ c ∈ (as.flatMap Spaced.text ++ rest).head?, isBare c = false := by
  cases as with
  | nil => exact hrest
  | cons a as =>
    obtain ⟨c, u, hgap⟩ := List.exists_cons_of_ne_nil a.gap_ne
    have hblank : Text.isBlank c = true := a.gap_blank c (by simp [hgap])
    intro d hd
    simp only [List.flatMap_cons, Spaced.text, hgap, List.cons_append, List.head?_cons, Option.mem_def,
      Option.some.injEq] at hd
    rw [← hd, isBare, hblank]
    rfl

/-- Arguments are updated one by one, each for the slot at its count. -/
theorem update_arguments (as : List Spaced) (hn : '\n' ∉ as.flatMap Spaced.text)
    (hrest : ∀ c ∈ rest.head?, isBare c = false) :
    update known (.argument usage? n) (as.flatMap Spaced.text ++ rest) =
      migratedArguments (fun i => acceptsAt usage? (n + i)) as ++
        update known (.argument usage? (n + slotIndex as as.length)) rest := by
  induction as generalizing n with
  | nil => rfl
  | cons a as ih =>
    rw [List.flatMap_cons, Spaced.text, List.mem_append, List.mem_append, not_or, not_or] at hn
    obtain ⟨⟨hgap, hoperand⟩, hmore⟩ := hn
    rw [List.flatMap_cons, Spaced.text, List.append_assoc, List.append_assoc, update_blanks a.gap_blank hgap,
      update_operand a.operand hoperand (bare_arguments as hrest), ih hmore, migratedArguments_cons,
      List.length_cons, slotIndex_succ]
    simp only [List.append_assoc, Nat.add_assoc, Nat.add_zero]

/-- A statement on a line of its own. -/
structure OneLine where
  indent : List Char
  name : List Char
  arguments : List Spaced
  trail : List Char
  indent_blank : ∀ c ∈ indent, Text.isBlank c = true
  name_isName : isName name = true
  trail_blank : ∀ c ∈ trail, Text.isBlank c = true
  newline : '\n' ∉ indent ++ (arguments.flatMap Spaced.text ++ trail)

namespace OneLine

variable (st : OneLine)

def text : List Char :=
  st.indent ++ (st.name ++ (st.arguments.flatMap Spaced.text ++ st.trail))

/-- The variants that the slots of the directive accept. -/
def accepts (known : Option Registry) : Nat → List TokenType :=
  acceptsAt (usageOf known (String.ofList st.name))

/-- What becomes of the statement. -/
def migrated (known : Option Registry) : List Char :=
  st.indent ++ (st.name ++ (migratedArguments (st.accepts known) st.arguments ++ st.trail))

theorem update_text : update known .name st.text = st.migrated known := by
  have hn := st.newline
  rw [List.mem_append, List.mem_append, not_or, not_or] at hn
  obtain ⟨hindent, harguments, htrail⟩ := hn
  have hrest : ∀ c ∈ st.trail.head?, isBare c = false := by
    intro c hc
    rw [isBare, st.trail_blank c (List.mem_of_mem_head? hc)]
    rfl
  have hend (standing : Standing) : update known standing st.trail = st.trail := by
    have hblanks : update known standing (st.trail ++ []) = st.trail ++ update known standing [] :=
      update_blanks st.trail_blank htrail
    rwa [update_nil, List.append_nil] at hblanks
  have hupdate : update known (.argument (usageOf known (String.ofList st.name)) 0)
      (st.arguments.flatMap Spaced.text ++ st.trail) = _ := update_arguments st.arguments harguments hrest
  simp only [hend, Nat.zero_add] at hupdate
  rw [text, update_blanks st.indent_blank hindent, update_directive st.name_isName (bare_arguments _ hrest), hupdate]
  rfl

end OneLine

/-- Makes a migrated text declare the current version. -/
def declaring (migrated : List Char) : String :=
  if (Dialect.versionIn? migrated).isSome then String.ofList (Dialect.retarget migrated)
  else Dialect.versionPragma Dialect.target ++ "; " ++ String.ofList migrated

theorem migrate_eq (known : Option Registry) (text : String) :
    migrate known text = declaring (update known .name text.toList) := by
  rw [← unlines_lines_eq_update]
  rfl

/-- In a statement on one line, migration leaves everything but words as it is. A word becomes a column if and only if
it is no truth value and the slot at its count takes a column, where the count is the index of the word if and only if
no properties stand before it. -/
theorem migrate_oneLine (known : Option Registry) (st : OneLine) :
    migrate known (String.ofList st.text) = declaring (st.migrated known) ∧
      (∀ (i : Nat) (w : List Char) (h : isBareWord w = true),
        (Operand.word w h).migrated (st.accepts known (slotIndex st.arguments i)) = asColumn w ↔
          TakesColumn (st.accepts known (slotIndex st.arguments i)) ∧ isTruth w = false) ∧
      ∀ i, slotIndex st.arguments i = i ↔ ∀ a ∈ st.arguments.take i, a.operand.isProperties = false := by
  refine ⟨?_, ?_, fun i => slotIndex_eq_iff⟩
  · rw [migrate_eq, String.toList_ofList, st.update_text]
  · intro i w h
    rw [Operand.migrated]
    split
    next hcolumn => exact iff_of_true rfl hcolumn
    next hcolumn => exact iff_of_false List.ne_cons_self hcolumn

/-- A renaming between blanks, with properties between its words that the grammar counts once. -/
def behindProperties : OneLine where
  indent := [' ']
  name := "rename".toList
  arguments := [.behindBlank (.word ['a'] (by decide +kernel)), .behindBlank (.properties "k=1".toList (by decide)),
    .behindBlank (.word ['b'] (by decide +kernel))]
  trail := [' ']
  indent_blank := List.forall_mem_singleton.mpr (by decide)
  name_isName := by decide +kernel
  trail_blank := List.forall_mem_singleton.mpr (by decide)
  newline := by decide

theorem migrate_oneLine_behindProperties :
    migrate (some .builtin) (String.ofList behindProperties.text) =
      "#pragma version 2.0;  rename :a prop:\x7bk=1\x7d b " := by
  rw [(migrate_oneLine (some .builtin) behindProperties).1]
  decide +kernel

/-- The grammar reads a word as the second argument of a renaming, whose second slot takes a column, and migration
leaves the word as it is. -/
theorem column_missed :
    (Recipe.ofText "rename prop:\x7ba=1\x7d b").toOption.map (·.groups.map fun g => g.arguments.map appearance) =
        some [[(.properties, "prop:\x7ba=1\x7d"), (.text, "b")]] ∧
      TakesColumn (acceptsAt (usageOf (some .builtin) "rename") 1) ∧ isBareWord "b".toList = true ∧
      isTruth "b".toList = false ∧
      migrate (some .builtin) "rename prop:\x7ba=1\x7d b" = "#pragma version 2.0; rename prop:\x7ba=1\x7d b" := by
  decide +kernel

end RowRecipe.Migration
