import RowRecipe.Proofs.Migration.Preservation

/-!
# Recipes of bare words

The statements of a recipe that is made of bare words can be read off its text: lines are split at semicolons, and
stretches of them at blanks. What the words of such a legacy recipe mean depends on the slots of the directive alone.
-/

namespace RowRecipe.Migration

open Grammar

variable {known : Option Registry} {c : Char} {cs u w rest : List Char} {n : Nat}

/-! ## Words -/

/-- The words of a text: what stands between its blanks. -/
def wordsOf (cs : List Char) : List (List Char) :=
  (cs.splitOnP isGapBlank).filter (!·.isEmpty)

/-- A blank separates the words before it from those behind it. -/
theorem wordsOf_append_cons (hc : isGapBlank c = true) (u cs : List Char) :
    wordsOf (u ++ c :: cs) = wordsOf u ++ wordsOf cs := by
  simp only [wordsOf, List.splitOnP_append_cons u cs hc, List.filter_append]

theorem wordsOf_blanks (hu : ∀ c ∈ u, isGapBlank c = true) (cs : List Char) : wordsOf (u ++ cs) = wordsOf cs := by
  induction u with
  | nil => rfl
  | cons c u ih =>
    rw [List.forall_mem_cons] at hu
    rw [List.cons_append, ← ih hu.2]
    exact wordsOf_append_cons hu.1 [] (u ++ cs)

theorem wordsOf_eq_nil (hu : ∀ c ∈ u, isGapBlank c = true) : wordsOf u = [] := by
  rw [← List.append_nil u, wordsOf_blanks hu]
  rfl

/-- A run of other characters is a word. -/
theorem wordsOf_word (hne : w ≠ []) (hw : ∀ c ∈ w, isGapBlank c = false)
    (hrest : ∀ c ∈ rest.head?, isGapBlank c = true) : wordsOf (w ++ rest) = w :: wordsOf rest := by
  have hword : wordsOf w = [w] := by
    rw [wordsOf, List.splitOnP_eq_singleton hw]
    simp [hne]
  cases rest with
  | nil => rw [List.append_nil, hword]; rfl
  | cons c cs =>
    have hc : isGapBlank c = true := hrest c rfl
    have hcs : wordsOf (c :: cs) = wordsOf cs := wordsOf_append_cons hc [] cs
    rw [wordsOf_append_cons hc, hword, hcs, List.singleton_append]

/-- A text is blanks alone, or it has a first word and a rest that starts with a blank, if it does not end there. -/
theorem words_induction {motive : List Char → Prop} (blanks : ∀ u, (∀ c ∈ u, isGapBlank c = true) → motive u)
    (word : ∀ u w rest, (∀ c ∈ u, isGapBlank c = true) → w ≠ [] → (∀ c ∈ w, isGapBlank c = false) →
      (∀ c ∈ rest.head?, isGapBlank c = true) → motive rest → motive (u ++ (w ++ rest)))
    (cs : List Char) : motive cs := by
  induction hn : cs.length using Nat.strong_induction_on generalizing cs with
  | _ n ih =>
    subst hn
    have hblanks : ∀ c ∈ cs.takeWhile isGapBlank, isGapBlank c = true := fun c => List.mem_takeWhile_imp
    have hsplit := List.takeWhile_append_dropWhile (p := isGapBlank) (l := cs)
    cases hd : cs.dropWhile isGapBlank with
    | nil =>
      rw [hd, List.append_nil] at hsplit
      rw [← hsplit]
      exact blanks _ hblanks
    | cons d ds =>
      have hfirst : isGapBlank d = false := head?_dropWhile cs d (by rw [hd]; rfl)
      have hword : ∀ c ∈ d :: ds.takeWhile (!isGapBlank ·), isGapBlank c = false := by
        rw [List.forall_mem_cons]
        exact ⟨hfirst, fun c hc => by simpa using List.mem_takeWhile_imp hc⟩
      have hrest : ∀ c ∈ (ds.dropWhile (!isGapBlank ·)).head?, isGapBlank c = true := by
        intro c hc
        simpa using head?_dropWhile (p := (!isGapBlank ·)) ds c hc
      have hlength : (ds.dropWhile (!isGapBlank ·)).length < cs.length := by
        have hle := (List.dropWhile_suffix (l := ds) (!isGapBlank ·)).length_le
        have htotal := congrArg List.length hsplit
        rw [hd, List.length_append, List.length_cons] at htotal
        omega
      have htext : cs.takeWhile isGapBlank ++ (d :: ds.takeWhile (!isGapBlank ·) ++ ds.dropWhile (!isGapBlank ·)) =
          cs := by
        rw [List.cons_append, List.takeWhile_append_dropWhile, ← hd, hsplit]
      rw [← htext]
      exact word _ _ _ hblanks (List.cons_ne_nil _ _) hword hrest (ih _ hlength _ rfl)

/-! ## Statements -/

/-- A statement as it is written: a name and arguments, and the line that they stand on. -/
structure Written where
  name : List Char
  arguments : List (List Char)
  line : Nat

/-- The statement that words make up, if there are any. -/
def Written.ofWords? (line : Nat) : List (List Char) → Option Written
  | [] => none
  | name :: arguments => some ⟨name, arguments, line⟩

/-- The statements in a line. -/
def writtenIn (line : Nat) (cs : List Char) : List Written :=
  (cs.splitOn ';').filterMap fun stretch => Written.ofWords? line (wordsOf stretch)

/-- The statements in a text that starts with the given line. -/
def writtenFrom (line : Nat) (cs : List Char) : List Written :=
  ((Text.lines cs).zipIdx line).flatMap fun l => writtenIn l.2 l.1

/-- The statements in a recipe. -/
def written (text : String) : List Written :=
  writtenFrom 1 text.toList

/-- A stretch holds no end of a statement. -/
def IsStretch (u : List Char) : Prop := ∀ c ∈ u, c ≠ ';' ∧ c ≠ '\n'

theorem IsStretch.newline (h : IsStretch u) : '\n' ∉ u := fun hmem => (h _ hmem).2 rfl

theorem writtenIn_stretch (h : IsStretch u) : writtenIn n u = (Written.ofWords? n (wordsOf u)).toList := by
  have hsemi : ∀ c ∈ u, (c == ';') = false := fun c hc => beq_false_of_ne (h c hc).1
  rw [writtenIn, List.splitOn, List.splitOnP_eq_singleton hsemi, List.filterMap_cons]
  cases Written.ofWords? n (wordsOf u) <;> rfl

theorem writtenFrom_eq (n : Nat) (cs : List Char) : writtenFrom n cs =
    writtenIn n (lineOf cs) ++ ((followingLines cs).zipIdx (n + 1)).flatMap fun l => writtenIn l.2 l.1 := by
  rw [writtenFrom, lines_eq, List.zipIdx_cons, List.flatMap_cons]

theorem writtenFrom_stretch (h : IsStretch u) :
    writtenFrom n u = (Written.ofWords? n (wordsOf u)).toList := by
  have hline : lineOf (u ++ []) = u ++ [] := lineOf_append h.newline
  have hfollow : followingLines (u ++ []) = [] := followingLines_append h.newline
  rw [List.append_nil] at hline hfollow
  rw [writtenFrom_eq, hline, hfollow, writtenIn_stretch h, List.zipIdx_nil, List.flatMap_nil, List.append_nil]

theorem writtenFrom_semicolon (h : IsStretch u) :
    writtenFrom n (u ++ ';' :: cs) = (Written.ofWords? n (wordsOf u)).toList ++ writtenFrom n cs := by
  have hn : '\n' ∉ u ++ [';'] := by simpa using h.newline
  have hcons : u ++ ';' :: cs = (u ++ [';']) ++ cs := by simp
  have hsplit : writtenIn n (u ++ ';' :: lineOf cs) = writtenIn n u ++ writtenIn n (lineOf cs) := by
    have hsemi : (';' == ';') = true := rfl
    simp only [writtenIn, List.splitOn, List.splitOnP_append_cons (p := (· == ';')) u (lineOf cs) hsemi,
      List.filterMap_append]
  rw [writtenFrom_eq, writtenFrom_eq n cs, hcons, lineOf_append hn, followingLines_append hn, List.append_assoc,
    List.singleton_append, hsplit, writtenIn_stretch h, List.append_assoc]

theorem writtenFrom_newline (h : IsStretch u) :
    writtenFrom n (u ++ '\n' :: cs) = (Written.ofWords? n (wordsOf u)).toList ++ writtenFrom (n + 1) cs := by
  have hline : lineOf ('\n' :: cs) = [] := rfl
  have hfollow : followingLines ('\n' :: cs) = Text.lines cs := rfl
  rw [writtenFrom_eq, lineOf_append h.newline, followingLines_append h.newline, hline, hfollow, List.append_nil,
    writtenIn_stretch h, writtenFrom]

/-- Behind a stretch the statements go on, on the same line or on the next one. -/
theorem writtenFrom_separator (n : Nat) (h : IsStretch u) (hc : c = ';' ∨ c = '\n') (cs : List Char) :
    ∃ m, writtenFrom n (u ++ c :: cs) = (Written.ofWords? n (wordsOf u)).toList ++ writtenFrom m cs ∧
      m = n + [c].count '\n' := by
  rcases hc with rfl | rfl
  · exact ⟨n, writtenFrom_semicolon h, rfl⟩
  · exact ⟨n + 1, writtenFrom_newline h, rfl⟩

/-- A text is a stretch alone, or a stretch with the end of its statement and a rest behind it. -/
theorem stretch_induction {motive : List Char → Prop} (last : ∀ u, IsStretch u → motive u)
    (more : ∀ u c rest, IsStretch u → (c = ';' ∨ c = '\n') → motive rest → motive (u ++ c :: rest))
    (cs : List Char) : motive cs := by
  induction hn : cs.length using Nat.strong_induction_on generalizing cs with
  | _ n ih =>
    subst hn
    let ends (c : Char) : Bool := c == ';' || c == '\n'
    have hstretch : IsStretch (cs.takeWhile (!ends ·)) := by
      intro c hc
      simpa [ends] using List.mem_takeWhile_imp hc
    have hsplit := List.takeWhile_append_dropWhile (p := (!ends ·)) (l := cs)
    cases hd : cs.dropWhile (!ends ·) with
    | nil =>
      rw [hd, List.append_nil] at hsplit
      rw [← hsplit]
      exact last _ hstretch
    | cons c rest =>
      have hc : c = ';' ∨ c = '\n' := by
        have hhead := head?_dropWhile (p := (!ends ·)) cs c (by rw [hd]; rfl)
        rw [Bool.not_eq_false', Bool.or_eq_true, beq_iff_eq, beq_iff_eq] at hhead
        exact hhead
      have hlength : rest.length < cs.length := by
        have htotal := congrArg List.length hsplit
        rw [hd, List.length_append, List.length_cons] at htotal
        omega
      rw [hd] at hsplit
      rw [← hsplit]
      exact more _ c rest hstretch hc (ih _ hlength _ rfl)

/-! ## Words with a meaning -/

/-- A name: a bare word without points. -/
def isName : List Char → Bool
  | [] => false
  | c :: cs => isNameStart c && cs.all isNameChar

/-- A word that a legacy recipe may give where these variants are accepted: a name, or a bare word with points where a
column is accepted, or bare words joined by commas where a list of columns is. -/
def IsWritten (accepts : List TokenType) (w : List Char) : Prop :=
  isName w = true ∨ (TakesColumn accepts ∧ isBareWord w = true) ∨
    (.columnNameList ∈ accepts ∧ ∀ v ∈ w.splitOn ',', isBareWord v = true)

instance (accepts : List TokenType) (w : List Char) : Decidable (IsWritten accepts w) :=
  inferInstanceAs (Decidable (_ ∨ _ ∧ _ ∨ _ ∧ _))

/-- The meaning of a word that names no column: a truth value in any case, or a text. -/
def wordMeaning (w : List Char) : Meaning :=
  if Text.lower (String.ofList w) = "true" then .boolean true
  else if Text.lower (String.ofList w) = "false" then .boolean false
  else .text (String.ofList w)

/-- The meaning of words that name columns. -/
def columnMeaning (ws : List (List Char)) : Meaning :=
  match ws.map String.ofList with
  | [name] => .columnName name
  | names => .columnNameList names

/-- What a written word means where these variants are accepted. It names a column, or several, if the slot takes one
and the word is no truth value. -/
def meaningOf (accepts : List TokenType) (w : List Char) : Meaning :=
  if TakesColumn accepts ∧ isTruth w = false then columnMeaning (w.splitOn ',') else wordMeaning w

namespace Written

/-- What the slots of the directive accept. -/
def acceptsAt (known : Option Registry) (st : Written) (index : Nat) : List TokenType :=
  Migration.acceptsAt (usageOf known (String.ofList st.name)) index

/-- A statement with a name and with words that its slots take. -/
def IsPlain (known : Option Registry) (st : Written) : Prop :=
  isName st.name = true ∧ ∀ arg ∈ st.arguments.zipIdx, IsWritten (st.acceptsAt known arg.2) arg.1

instance (known : Option Registry) (st : Written) : Decidable (st.IsPlain known) :=
  inferInstanceAs (Decidable (_ ∧ _))

/-- What the arguments of a statement mean. -/
def meanings (known : Option Registry) (st : Written) : List Meaning :=
  st.arguments.zipIdx.map fun arg => meaningOf (st.acceptsAt known arg.2) arg.1

end Written

end RowRecipe.Migration
