import RowRecipe.Migration

/-!
# Replacing from the right

Migration collects its replacements statement by statement, with their places in the line as it was, and carries them
out from the right. Here it is one walk over the line from the left, which updates every piece for itself: what is
replaced lies apart and in order, so no replacement moves another one.
-/

namespace RowRecipe.Migration

/-! ## A walk over a line -/

/-- Where a piece stands. -/
inductive Standing
  /-- It names the directive of a statement. -/
  | name
  /-- It is an argument of a statement with this usage. -/
  | argument (usage? : Option UsageDefinition) (index : Nat)
  /-- It belongs to a pragma. -/
  | pragma

/-- Where the pieces after the name of a statement stand. -/
def afterName (known : Option Registry) (text : List Char) : Standing :=
  if text.head? = some '#' then .pragma
  else .argument (known.bind fun r => r.usages.get? (String.ofList text)) 0

namespace Standing

/-- Where the piece behind a piece stands. -/
def next (known : Option Registry) (standing : Standing) (text : List Char) : Standing :=
  if text = [';'] then .name
  else match standing with
    | name => afterName known text
    | argument usage? index => .argument usage? (index + 1)
    | pragma => .pragma

/-- The current form of a piece. -/
def updated (standing : Standing) (text : List Char) : List Char :=
  match standing with
  | argument usage? index => if text = [';'] then text else currentForm (acceptsAt usage? index) text
  | _ => text

theorem updated_semicolon (standing : Standing) : standing.updated [';'] = [';'] := by
  cases standing <;> rfl

end Standing

/-- Updates the parts of a line up to a comment. -/
def updateParts (known : Option Registry) : Standing → List Part → List (List Char)
  | _, [] => []
  | standing, .between c :: ps => [c] :: updateParts known standing ps
  | standing, .piece text :: ps =>
    if "//".toList.isPrefixOf text then text :: ps.map Part.text
    else if text = [';'] then text :: updateParts known .name ps
    else match standing with
      | .name => text :: updateParts known (afterName known text) ps
      | .argument usage? index =>
        currentForm (acceptsAt usage? index) text :: updateParts known (.argument usage? (index + 1)) ps
      | .pragma => text :: updateParts known .pragma ps

variable {known : Option Registry} {standing : Standing} {text : List Char} {ps : List Part}

theorem updateParts_piece (h : "//".toList.isPrefixOf text = false) : updateParts known standing (.piece text :: ps) =
    standing.updated text :: updateParts known (standing.next known text) ps := by
  have hslash : ¬ "//".toList.isPrefixOf text = true := ne_true_of_eq_false h
  by_cases hsemi : text = [';']
  · subst hsemi
    cases standing <;> rfl
  · cases standing <;> rw [updateParts, if_neg hslash, if_neg hsemi] <;>
      simp [Standing.updated, Standing.next, hsemi]

theorem updateParts_comment (h : "//".toList.isPrefixOf text = true) :
    updateParts known standing (.piece text :: ps) = text :: ps.map Part.text := by
  cases standing <;> rw [updateParts, if_pos h]

/-! ## The replacements of a walk -/

/-- Where a piece stands behind the first pieces of its statement. -/
def standingBehind (known : Option Registry) : List (List Char) → Standing
  | [] => .name
  | name :: arguments =>
    if name.head? = some '#' then .pragma else .argument (usageOf known (String.ofList name)) arguments.length

theorem standingBehind_concat (statement : List (List Char)) (h : text ≠ [';']) :
    standingBehind known (statement ++ [text]) = (standingBehind known statement).next known text := by
  cases statement with
  | nil =>
    unfold Standing.next
    rw [if_neg h]
    rfl
  | cons name arguments =>
    rw [List.cons_append, standingBehind, standingBehind, List.length_append]
    unfold Standing.next
    rw [if_neg h]
    split <;> rfl

theorem statementReplacements_concat (statement : List Placed) {p : Placed} (h : p.text ≠ [';']) :
    statementReplacements known (statement ++ [p]) = statementReplacements known statement ++
      (p.replacement? ((standingBehind known (statement.map (·.text))).updated p.text)).toList := by
  have hsame : p.replacement? p.text = none := if_pos rfl
  cases statement with
  | nil => simp [statementReplacements, standingBehind, Standing.updated, hsame]
  | cons name arguments =>
    rw [List.cons_append, statementReplacements, statementReplacements, List.map_cons, standingBehind]
    split
    next => simp [Standing.updated, hsame]
    next =>
      simp only [List.zipIdx_append, List.filterMap_append, List.zipIdx_singleton, Nat.zero_add, List.length_map,
        Standing.updated, if_neg h]
      cases h : p.replacement? _ <;> simp [h]

/-- What is replaced among pieces, the first of which stands where it is said. -/
def replacementsFrom (known : Option Registry) : Standing → List Placed → List Replacement
  | _, [] => []
  | standing, p :: ps =>
    if "//".toList.isPrefixOf p.text then []
    else (p.replacement? (standing.updated p.text)).toList ++ replacementsFrom known (standing.next known p.text) ps

/-- Replacements may be collected piece by piece. -/
theorem replacements_eq (statement ps : List Placed) : replacements known statement ps =
    statementReplacements known statement ++
      replacementsFrom known (standingBehind known (statement.map (·.text))) ps := by
  induction ps generalizing statement with
  | nil => simp [replacements, replacementsFrom]
  | cons p ps ih =>
    rw [replacements, replacementsFrom]
    split
    next => simp
    next =>
      split
      next hsemi =>
        have hnone : p.replacement? ((standingBehind known (statement.map (·.text))).updated p.text) = none := by
          rw [Placed.replacement?, hsemi, Standing.updated_semicolon, if_pos rfl]
        have hnext : (standingBehind known (statement.map (·.text))).next known p.text = .name := if_pos hsemi
        rw [ih, hnone, hnext]
        rfl
      next hsemi =>
        rw [ih, statementReplacements_concat statement hsemi, List.map_append, List.map_singleton,
          standingBehind_concat _ hsemi, List.append_assoc]

/-! ## From the right -/

theorem apply_append (u w v text : List Char) :
    (Replacement.mk u.length (u.length + w.length) text).apply (u ++ (w ++ v)) = u ++ (text ++ v) := by
  have hdrop : (u ++ (w ++ v)).drop (u.length + w.length) = v := by
    rw [← List.append_assoc, ← List.length_append, List.drop_left]
  rw [Replacement.apply, List.take_left, hdrop, List.append_assoc]

/-- Carrying out the replacements behind a text leaves the text as it is, and updates what follows. -/
theorem foldr_replacementsFrom (u : List Char) (standing : Standing) (ps : List Part) :
    (replacementsFrom known standing (placed u.length ps)).foldr Replacement.apply (u ++ ps.flatMap Part.text) =
      u ++ (updateParts known standing ps).flatten := by
  induction ps generalizing u standing with
  | nil => rfl
  | cons p ps ih =>
    cases p with
    | between c =>
      have hu : u ++ c :: ps.flatMap Part.text = (u ++ [c]) ++ ps.flatMap Part.text := by simp
      have hplaced : placed u.length (.between c :: ps) = placed (u ++ [c]).length ps := by
        rw [List.length_append]
        rfl
      rw [List.flatMap_cons, Part.text, List.singleton_append, hu, hplaced, ih, updateParts]
      simp
    | piece text =>
      have hih := ih (u ++ text) (standing.next known text)
      rw [List.length_append, List.append_assoc, List.append_assoc] at hih
      rw [placed, replacementsFrom, List.flatMap_cons, Part.text]
      split
      next hslash =>
        rw [updateParts_comment hslash, List.flatten_cons, ← List.flatMap_def]
        rfl
      next hslash =>
        rw [updateParts_piece (eq_false_of_ne_true hslash), List.flatten_cons, List.foldr_append, hih,
          Placed.replacement?]
        split
        next hsame => rw [hsame]; rfl
        next => exact apply_append u text _ _

/-- Migrating a line is one walk over its parts. -/
theorem line_eq (known : Option Registry) (cs : List Char) :
    line known cs = (updateParts known .name (parts cs)).flatten := by
  have hwalk : (replacementsFrom known .name (placed 0 (parts cs))).foldr Replacement.apply
      ((parts cs).flatMap Part.text) = _ := foldr_replacementsFrom [] .name (parts cs)
  rw [parts_text] at hwalk
  rw [line, replacements_eq]
  exact hwalk

end RowRecipe.Migration
