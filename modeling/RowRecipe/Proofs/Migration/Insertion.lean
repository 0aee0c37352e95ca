import Mathlib.Data.List.Forall2
import RowRecipe.Proofs.Grammar.Promotion
import RowRecipe.Proofs.Migration.Replacing

/-!
# Migration inserts marks

Migration takes nothing away from a recipe. It inserts colons, quotes and backslashes, so a migrated
recipe declares no version that the recipe does not declare.
-/

namespace RowRecipe.Migration

/-- Whether migration may insert `c`. -/
def isInserted (c : Char) : Bool :=
  c == ':' || c == '\'' || c == '\\'

/-- The second text is the first one with marks inserted. -/
inductive Inserted : List Char → List Char → Prop
  | nil : Inserted [] []
  | same {cs ds : List Char} (c : Char) (h : Inserted cs ds) : Inserted (c :: cs) (c :: ds)
  | mark {cs ds : List Char} {c : Char} (hc : isInserted c = true) (h : Inserted cs ds) : Inserted cs (c :: ds)

namespace Inserted

variable {cs ds es fs : List Char} {c : Char}

theorem refl (cs : List Char) : Inserted cs cs := by
  induction cs with
  | nil => exact .nil
  | cons c cs ih => exact .same c ih

theorem append (h : Inserted cs ds) (h' : Inserted es fs) : Inserted (cs ++ es) (ds ++ fs) := by
  induction h with
  | nil => exact h'
  | same c _ ih => exact .same c ih
  | mark hc _ ih => exact .mark hc ih

theorem flatten {css dss : List (List Char)} (h : List.Forall₂ Inserted css dss) :
    Inserted css.flatten dss.flatten := by
  induction h with
  | nil => exact .nil
  | cons h _ ih => exact h.append ih

/-- What is in the second text is a mark, or it is in the first one. -/
theorem mem (h : Inserted cs ds) (hc : c ∈ ds) : isInserted c = true ∨ c ∈ cs := by
  induction h with
  | nil => exact .inr hc
  | same d _ ih =>
    rcases List.mem_cons.mp hc with rfl | hc
    · exact .inr List.mem_cons_self
    · exact (ih hc).imp_right (List.mem_cons_of_mem _)
  | mark hd _ ih =>
    rcases List.mem_cons.mp hc with rfl | hc
    · exact .inl hd
    · exact ih hc

/-- A text without marks that the second text starts with, the first text starts with. -/
theorem of_append {w : List Char} (hw : ∀ c ∈ w, isInserted c = false) (h : Inserted cs (w ++ ds)) :
    ∃ es, cs = w ++ es ∧ Inserted es ds := by
  induction w generalizing cs with
  | nil => exact ⟨cs, rfl, h⟩
  | cons c w ih =>
    rw [List.forall_mem_cons] at hw
    cases h with
    | same _ h =>
      obtain ⟨es, rfl, hes⟩ := ih hw.2 h
      exact ⟨es, rfl, hes⟩
    | mark hc _ =>
      rw [hw.1] at hc
      cases hc

end Inserted

/-! ## What migration inserts -/

theorem inserted_asColumn (text : List Char) : Inserted text (asColumn text) :=
  .mark rfl (.refl text)

theorem inserted_inQuotes (text : List Char) : Inserted text (inQuotes text) := by
  have hescape : Inserted text (text.flatMap fun c => if c = '\\' then ['\\', '\\'] else [c]) := by
    induction text with
    | nil => exact .nil
    | cons c text ih =>
      rw [List.flatMap_cons]
      split
      next hc =>
        subst hc
        exact .mark rfl (.same _ ih)
      next => exact .same _ ih
  have hquoted := hescape.append (.mark (c := '\'') rfl .nil)
  rw [List.append_nil] at hquoted
  exact .mark rfl hquoted

theorem inserted_intercalate (words : List (List Char)) (sep : List Char) :
    Inserted (sep.intercalate words) (sep.intercalate (words.map asColumn)) := by
  have hjoin (words : List (List Char)) :
      List.Forall₂ Inserted (words.intersperse sep) ((words.map asColumn).intersperse sep) := by
    induction words with
    | nil => exact .nil
    | cons w words ih =>
      cases words with
      | nil => exact .cons (inserted_asColumn w) .nil
      | cons v words => exact .cons (inserted_asColumn w) (.cons (.refl sep) ih)
  exact Inserted.flatten (hjoin words)

theorem inserted_columnList? {text columns : List Char} (h : columnList? text = some columns) :
    Inserted text columns := by
  simp only [columnList?] at h
  split at h
  next =>
    cases h
    have := inserted_intercalate (text.splitOn ',') [',']
    rwa [List.intercalate_splitOn] at this
  next => cases h

theorem inserted_currentForm (accepts : List TokenType) (text : List Char) :
    Inserted text (currentForm accepts text) := by
  unfold currentForm
  simp only
  split
  next => exact inserted_asColumn text
  next =>
    split
    next columns hcolumns =>
      split at hcolumns
      next => exact inserted_columnList? hcolumns
      next => cases hcolumns
    next =>
      split
      next => exact inserted_inQuotes text
      next => exact .refl text

theorem inserted_updated (standing : Standing) (text : List Char) : Inserted text (standing.updated text) := by
  unfold Standing.updated
  split
  next =>
    split
    next => exact .refl text
    next => exact inserted_currentForm _ text
  next => exact .refl text

theorem inserted_updateParts (known : Option Registry) (standing : Standing) (ps : List Part) :
    Inserted (ps.flatMap Part.text) (updateParts known standing ps).flatten := by
  induction ps generalizing standing with
  | nil => exact .nil
  | cons p ps ih =>
    cases p with
    | between c => exact .same c (ih standing)
    | piece text =>
      rw [List.flatMap_cons]
      cases hslash : "//".toList.isPrefixOf text with
      | true =>
        rw [updateParts_comment hslash, List.flatten_cons, ← List.flatMap_def]
        exact .refl _
      | false =>
        rw [updateParts_piece hslash]
        exact (inserted_updated standing text).append (ih _)

theorem inserted_line (known : Option Registry) (cs : List Char) : Inserted cs (line known cs) := by
  have := inserted_updateParts known .name (parts cs)
  rwa [parts_text, ← line_eq] at this

/-- The migrated lines are the lines with marks inserted. -/
theorem inserted_lines (known : Option Registry) (cs : List Char) :
    Inserted cs (Text.unlines ((Text.lines cs).map (line known))) := by
  have hjoin (ls : List (List Char)) : Inserted (Text.unlines ls) (Text.unlines (ls.map (line known))) := by
    induction ls with
    | nil => exact .nil
    | cons l ls ih =>
      cases ls with
      | nil => exact inserted_line known l
      | cons l' ls => exact (inserted_line known l).append (.same '\n' ih)
  have := hjoin (Text.lines cs)
  rwa [Text.unlines_lines] at this

/-! ## No version appears -/

/-- The start of a version pragma. -/
def StartsVersion (cs : List Char) : Prop :=
  ∃ u v d rest, (∀ c ∈ u, Text.isBlank c = true) ∧ u ≠ [] ∧ (∀ c ∈ v, Text.isBlank c = true) ∧ v ≠ [] ∧
    d.isDigit = true ∧ cs = "#pragma".toList ++ (u ++ ("version".toList ++ (v ++ d :: rest)))

theorem StartsVersion.of_inserted {cs ds : List Char} (h : StartsVersion ds) (hi : Inserted cs ds) :
    StartsVersion cs := by
  have blank {c : Char} (h : Text.isBlank c = true) : isInserted c = false := by
    rw [← Bool.not_eq_true]
    intro hc
    simp only [isInserted, Bool.or_eq_true, beq_iff_eq] at hc
    rcases hc with (rfl | rfl) | rfl <;> exact absurd h (by decide)
  have digit {c : Char} (h : c.isDigit = true) : isInserted c = false := by
    rw [← Bool.not_eq_true]
    intro hc
    simp only [isInserted, Bool.or_eq_true, beq_iff_eq] at hc
    rcases hc with (rfl | rfl) | rfl <;> exact absurd h (by decide)
  obtain ⟨u, v, d, rest, hu, hune, hv, hvne, hd, rfl⟩ := h
  obtain ⟨es₁, rfl, h₁⟩ := hi.of_append (by simp [isInserted])
  obtain ⟨es₂, rfl, h₂⟩ := h₁.of_append fun c hc => blank (hu c hc)
  obtain ⟨es₃, rfl, h₃⟩ := h₂.of_append (by simp [isInserted])
  obtain ⟨es₄, rfl, h₄⟩ := h₃.of_append fun c hc => blank (hv c hc)
  obtain ⟨es₅, rfl, _⟩ := h₄.of_append (w := [d]) (by simpa using digit hd)
  exact ⟨u, v, d, es₅, hu, hune, hv, hvne, hd, rfl⟩

theorem afterBlanks?_eq_some {cs ds : List Char} :
    Dialect.afterBlanks? cs = some ds ↔ ∃ u, (∀ c ∈ u, Text.isBlank c = true) ∧ u ≠ [] ∧ cs = u ++ ds ∧
      ∀ c ∈ ds.head?, Text.isBlank c = false := by
  unfold Dialect.afterBlanks?
  constructor
  · intro h
    obtain ⟨r, hr, rfl⟩ := Option.map_eq_some_iff.mp h
    cases cs with
    | nil => cases hr
    | cons c cs =>
      have hc := Grammar.runCut?_starts hr
      rw [Grammar.runCut?, if_pos hc] at hr
      cases hr
      refine ⟨c :: cs.takeWhile Text.isBlank, ?_, List.cons_ne_nil _ _, ?_, head?_dropWhile cs⟩
      · exact List.forall_mem_cons.mpr ⟨hc, fun d => List.mem_takeWhile_imp⟩
      · simp
  · rintro ⟨u, hu, hne, rfl, hds⟩
    obtain ⟨c, u, rfl⟩ := List.exists_cons_of_ne_nil hne
    rw [List.forall_mem_cons] at hu
    rw [List.cons_append, Grammar.runCut?, if_pos hu.1, Option.map_some, dropWhile_append_of_head hds,
      List.dropWhile_eq_nil_iff.mpr hu.2, List.nil_append]

theorem wordCut?_eq_some {w cs : List Char} {r : Grammar.Cut} : Grammar.wordCut? w cs = some r ↔ r.1 = w ∧ cs = w ++ r.2 := by
  unfold Grammar.wordCut?
  constructor
  · intro h
    split at h
    next hp =>
      cases h
      exact ⟨rfl, (List.prefix_iff_eq_append.mp (List.isPrefixOf_iff_prefix.mp hp)).symm⟩
    next => cases h
  · obtain ⟨taken, rest⟩ := r
    rintro ⟨rfl, rfl⟩
    simp

/-- What a pragma with blanks between its words declares stands behind them. -/
theorem pragmaCut?_written {u v rest : List Char} {d : Char} (hu : ∀ c ∈ u, Text.isBlank c = true) (hune : u ≠ [])
    (hv : ∀ c ∈ v, Text.isBlank c = true) (hvne : v ≠ []) (hd : d.isDigit = true) :
    Dialect.pragmaCut? ("#pragma".toList ++ (u ++ ("version".toList ++ (v ++ d :: rest)))) =
      Grammar.runCut? (·.isDigit) (fun c => c.isDigit || c == '.') (d :: rest) := by
  have wordOf (w cs : List Char) : Grammar.wordCut? w (w ++ cs) = some (w, cs) := wordCut?_eq_some.mpr ⟨rfl, rfl⟩
  have hdigit : ∀ c ∈ (d :: rest).head?, Text.isBlank c = false := by
    rintro _ ⟨⟩
    exact Grammar.not_isBlank_of_isLexical
      (Grammar.isLexical_of_isAlphanumeric (Text.isAlphanumeric_of_decimal hd))
  have hword : ∀ c ∈ ("version".toList ++ (v ++ d :: rest)).head?, Text.isBlank c = false := by
    rintro _ ⟨⟩
    decide
  simp only [Dialect.pragmaCut?, Option.bind_eq_bind, wordOf, Option.bind_some,
    afterBlanks?_eq_some.mpr ⟨u, hu, hune, rfl, hword⟩, afterBlanks?_eq_some.mpr ⟨v, hv, hvne, rfl, hdigit⟩]

/-- A pragma is recognised exactly where one starts. -/
theorem pragmaCut?_isSome {cs : List Char} : (Dialect.pragmaCut? cs).isSome = true ↔ StartsVersion cs := by
  constructor
  · simp only [Dialect.pragmaCut?, Option.bind_eq_bind, Option.isSome_iff_exists, Option.bind_eq_some_iff]
    rintro ⟨r, pragma, hp, as, has, version, hv, bs, hbs, hr⟩
    obtain ⟨u, hu, hune, hpu, _⟩ := afterBlanks?_eq_some.mp has
    obtain ⟨v, hv', hvne, hvv, _⟩ := afterBlanks?_eq_some.mp hbs
    cases bs with
    | nil => cases hr
    | cons d rest =>
      refine ⟨u, v, d, rest, hu, hune, hv', hvne, Grammar.runCut?_starts hr, ?_⟩
      rw [(wordCut?_eq_some.mp hp).2, hpu, (wordCut?_eq_some.mp hv).2, hvv]
  · rintro ⟨u, v, d, rest, hu, hune, hv, hvne, hd, rfl⟩
    rw [pragmaCut?_written hu hune hv hvne hd, Grammar.runCut?, if_pos hd]
    rfl

/-- A pragma starts with a number sign. -/
theorem pragmaCut?_eq_none {c : Char} {cs : List Char} (hc : c ≠ '#') : Dialect.pragmaCut? (c :: cs) = none := by
  rw [← Option.not_isSome_iff_eq_none, pragmaCut?_isSome]
  rintro ⟨_, _, _, _, -, -, -, -, -, hcs⟩
  exact hc (List.cons.inj hcs).1

theorem ne_sign_of_isInserted {c : Char} (hc : isInserted c = true) : c ≠ '#' := by
  rintro rfl
  cases hc

/-- Migration makes no version appear. -/
theorem versionIn?_of_inserted {cs ds : List Char} (h : Inserted cs ds) (hv : Dialect.versionIn? cs = none) :
    Dialect.versionIn? ds = none := by
  induction h with
  | nil => rfl
  | @same cs ds c h ih =>
    rw [Dialect.versionIn?] at hv ⊢
    split at hv
    next => cases hv
    next hcs =>
      split
      next r hds =>
        have hds : StartsVersion (c :: ds) := pragmaCut?_isSome.mp (by rw [hds]; rfl)
        have hcs' := pragmaCut?_isSome.mpr (hds.of_inserted (.same c h))
        rw [hcs] at hcs'
        cases hcs'
      next => exact ih hv
  | @mark cs ds c hc h ih =>
    rw [Dialect.versionIn?, pragmaCut?_eq_none (ne_sign_of_isInserted hc)]
    exact ih hv

end RowRecipe.Migration
