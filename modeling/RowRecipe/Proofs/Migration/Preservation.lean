import RowRecipe.Directive.Builtin
import RowRecipe.Proofs.Migration.Tokens
import RowRecipe.Proofs.Script.VersionPragma

/-!
# Migration of current recipes

A recipe of the current dialect that declares no version counts as a legacy one and is migrated. If it is
legible, it says the same afterwards, apart from words that have become columns.
-/

namespace RowRecipe.Migration

open Grammar Script

variable {known : Option Registry} {text : String} {P : Sighting → Prop}

/-- The arguments that migration sees in a recipe. -/
def sightingsIn (known : Option Registry) (text : String) : List Sighting :=
  sightingsFrom known .origin (Text.lines text.toList)

/-- The grammar and migration read the recipe alike: all pieces of the grammar are legible, and no argument
that migration sees is a single punctuation mark. -/
structure IsLegible (known : Option Registry) (text : String) : Prop where
  pieces : ∀ ps, scan .statement text.toList = .ok ps → ∀ x ∈ readings .statement ps, Legible x
  marks : ∀ x ∈ sightingsIn known text, isPunctuation x.text = false

instance (x : State × Piece) : Decidable (Legible x) :=
  decidable_of_iff ((x.2.terminal? ≠ some .separator → '\n' ∉ x.2.text) ∧
      (x.1.inProperties = true → x.2.terminal? ≠ some .closing → '\x7d' ∉ x.2.text))
    ⟨fun h => ⟨h.1, h.2⟩, fun h => ⟨h.line, h.braces⟩⟩

instance (known : Option Registry) (text : String) : Decidable (IsLegible known text) :=
  decidable_of_iff ((∀ ps ∈ (scan .statement text.toList).toOption, ∀ x ∈ readings .statement ps, Legible x) ∧
      ∀ x ∈ sightingsIn known text, isPunctuation x.text = false) <| by
    cases h : scan .statement text.toList with
    | ok ps =>
      constructor
      · rintro ⟨hpieces, hmarks⟩
        refine ⟨fun qs hqs => ?_, hmarks⟩
        rw [h] at hqs
        cases hqs
        exact hpieces ps rfl
      · rintro ⟨hpieces, hmarks⟩
        refine ⟨?_, hmarks⟩
        rintro _ ⟨⟩
        exact hpieces ps h
    | error stop =>
      constructor
      · rintro ⟨-, hmarks⟩
        refine ⟨fun qs hqs => ?_, hmarks⟩
        rw [h] at hqs
        cases hqs
      · rintro ⟨-, hmarks⟩
        exact ⟨by rintro _ ⟨⟩, hmarks⟩

/-- A recipe without a version is updated line by line behind a pragma. -/
theorem migrate_toList (hv : Dialect.declared? text = none) :
    (migrate known text).toList = "#pragma version 2.0;".toList ++ ' ' :: update known .name text.toList := by
  have hnone : Dialect.versionIn? (update known .name text.toList) = none := by
    rw [← unlines_lines_eq_update]
    exact versionIn?_of_inserted (inserted_lines known text.toList) hv
  have hmigrate : migrate known text =
      if (Dialect.versionIn? (update known .name text.toList)).isSome then
        String.ofList (Dialect.retarget (update known .name text.toList))
      else Dialect.versionPragma Dialect.target ++ "; " ++ String.ofList (update known .name text.toList) := by
    rw [migrate, unlines_lines_eq_update]
  have hpragma : (Dialect.versionPragma Dialect.target ++ "; ").toList = "#pragma version 2.0;".toList ++ [' '] := by
    decide +kernel
  have hupdate : (String.ofList (update known .name text.toList)).toList = update known .name text.toList :=
    String.toList_ofList
  rw [hmigrate, hnone, Option.isSome_none, if_neg Bool.false_ne_true, String.toList_append, hpragma, hupdate,
    List.append_assoc, List.singleton_append]

/-- Migration of a legible recipe promotes words to columns. -/
theorem promoted_of_isLegible {ps : List Piece} (hps : Scanned .statement text.toList ps)
    (hl : IsLegible known text) : ∃ qs,
      Promoted (Promotable (· ∈ sightingsIn known text)) .origin false .statement ps qs ∧
        Piece.textOf qs = update known .name text.toList := by
  have hcovers : Covers known (· ∈ sightingsIn known text) .origin .name text.toList := by
    constructor
    · intro x hx
      rw [sightingsIn, lines_eq, sightingsFrom]
      exact List.mem_append_left _ hx
    · intro x hx
      rw [sightingsIn, lines_eq, sightingsFrom]
      exact List.mem_append_right _ hx
  exact follows hl.marks hps (hl.pieces ps (scan_eq_ok_iff.mpr hps)) .origin false .name [] text.toList hps.text
    (.boundary .name (by simp) hcovers)

/-! ## Slots -/

/-- The words of a statement, each with the variants that its slot accepts. -/
def wordSlots (known : Option Registry) : Statement → List (Lexeme × List TokenType)
  | .directive name args => args.zipIdx.filterMap fun arg =>
    match arg with
    | (.word l, i) => some (l, acceptsAt (usageOf known name.text) i)
    | _ => none
  | _ => []

theorem mem_wordSlots {name l : Lexeme} {args : List Argument} {i : Nat} (h : args[i]? = some (.word l)) :
    (l, acceptsAt (usageOf known name.text) i) ∈ wordSlots known (.directive name args) :=
  List.mem_filterMap.mpr ⟨(.word l, i), List.mk_mem_zipIdx_iff_getElem?.mpr h, rfl⟩

/-- Migration counts every word into a slot that accepts what the slot of the word accepts. -/
def CountsAlike (known : Option Registry) (text : String) (script : Script) : Prop :=
  ∀ st ∈ script.statements, ∀ w ∈ wordSlots known st, ∀ x ∈ sightingsIn known text,
    x.start = w.1.start → x.accepts = w.2

instance (known : Option Registry) (text : String) (script : Script) : Decidable (CountsAlike known text script) :=
  inferInstanceAs (Decidable (∀ st ∈ script.statements, ∀ w ∈ wordSlots known st, _))

/-- A token means what it meant, or it is a bare word in a slot that takes a column, and it has become the
column. -/
inductive KeptToken (accepts : List TokenType) : Token → Token → Prop
  | same {t t' : Token} (h : t'.meaning = t.meaning) : KeptToken accepts t t'
  | column {w : String} (h : TakesColumn accepts) : KeptToken accepts ⟨.text w, w⟩ ⟨.columnName w, ":" ++ w⟩

/-- A group keeps its name, its line, and its tokens. -/
structure KeptGroup (known : Option Registry) (g g' : TokenGroup) : Prop where
  name : g'.name = g.name
  line : g'.line = g.line
  length : g'.arguments.length = g.arguments.length
  arguments : ∀ (i : Nat) (t t' : Token), g.arguments[i]? = some t → g'.arguments[i]? = some t' →
    KeptToken (acceptsAt (usageOf known g.name) i) t t'

theorem SameTokens.length {args : List Argument} {ts ts' : List Token} (h : SameTokens P args ts ts') :
    ts'.length = ts.length := by
  induction h with
  | nil => rfl
  | cons _ _ ih => rw [List.length_cons, List.length_cons, ih]

theorem SameTokens.get {args : List Argument} {ts ts' : List Token} (h : SameTokens P args ts ts') {i : Nat}
    {t t' : Token} (ht : ts[i]? = some t) (ht' : ts'[i]? = some t') :
    ∃ arg, args[i]? = some arg ∧ SameToken P arg t t' := by
  induction h generalizing i with
  | nil => cases ht
  | @cons arg _ _ _ _ _ h _ ih =>
    cases i with
    | zero =>
      cases ht
      cases ht'
      exact ⟨arg, rfl, h⟩
    | succ i => exact ih ht ht'

/-- Where migration counts as the grammar does, groups keep their tokens. -/
theorem keptGroups_of_sameGroups {script : Script} (hcounts : CountsAlike known text script) {sts : List Statement}
    {gs gs' : List TokenGroup} (h : SameGroups (· ∈ sightingsIn known text) sts gs gs')
    (hsts : sts ⊆ script.statements) : List.Forall₂ (KeptGroup known) gs gs' := by
  induction h with
  | nil => exact .nil
  | version _ ih => exact ih fun st hst => hsts (List.mem_cons_of_mem _ hst)
  | load _ ih => exact ih fun st hst => hsts (List.mem_cons_of_mem _ hst)
  | @directive name args sts g g' gs gs' hname hline hargs _ ih =>
    refine .cons ⟨hname.2.trans hname.1.symm, hline.2.trans hline.1.symm, hargs.length, ?_⟩
      (ih fun st hst => hsts (List.mem_cons_of_mem _ hst))
    intro i t t' ht ht'
    obtain ⟨arg, harg, hsame⟩ := hargs.get ht ht'
    cases hsame with
    | same h => exact .same h
    | @column l x hx hstart _ hcolumn =>
      have haccepts : x.accepts = acceptsAt (usageOf known name.text) i :=
        hcounts _ (hsts List.mem_cons_self) _ (mem_wordSlots harg) x hx hstart
      rw [hname.1, ← haccepts]
      exact .column hcolumn

/-! ## Preservation -/

/-- Migration of a legible recipe keeps its groups. Words that migration sees in a slot for columns may become
columns; these are slots of their own where migration counts as the grammar does. -/
theorem migrate_preserves {r : Recipe} (hv : Dialect.declared? text = none) (hr : Recipe.ofText text = .ok r)
    (hl : IsLegible known text) : ∃ script r', Script.read text = .ok script ∧
      Recipe.ofText (migrate known text) = .ok r' ∧
      SameGroups (· ∈ sightingsIn known text) script.statements r.groups r'.groups ∧
      (CountsAlike known text script → List.Forall₂ (KeptGroup known) r.groups r'.groups) := by
  obtain ⟨script, hscript, hr⟩ := Recipe.ofText_eq_ok.mp hr
  obtain ⟨ps, hps, rfl⟩ := read_eq_ok.mp hscript
  obtain ⟨qs, hpromoted, htext⟩ := promoted_of_isLegible hps hl
  have hqs : Scanned .statement (update known .name text.toList) qs := by
    rw [← htext]
    exact hpromoted.scanned hps (.inl rfl)
  -- the migrated text is scanned behind its pragma
  obtain ⟨qs', hqs', hlocate⟩ := scanned_blank hqs
  have hmigrated := scanned_pragmaPieces hqs'
  rw [← migrate_toList hv] at hmigrated
  obtain ⟨number, place, hline, hstatements⟩ := statements_pragmaPieces qs'
  rw [hlocate] at hstatements
  have hnext : (place.next ' ').line = 1 := hline
  have hcarried := ofLexemes_of_promoted hpromoted hps hnext
  obtain ⟨r', gs, gs', hr', hgs, hgs', hsame⟩ :=
    groups_of_carried (migrate known text) { Recipe.empty with version := some number.text } hcarried hr
  refine ⟨_, r', hscript, Recipe.ofText_eq_ok.mpr ⟨_, read_eq_ok.mpr ⟨_, hmigrated, rfl⟩, ?_⟩, ?_⟩
  · rw [hstatements, List.foldlM_cons]
    exact hr'
  · obtain rfl : gs = r.groups := hgs.symm
    obtain rfl : gs' = r'.groups := hgs'.symm
    exact ⟨hsame, fun hcounts => keptGroups_of_sameGroups hcounts hsame (List.Subset.refl _)⟩

/-- A recipe that names columns by words. -/
def namedByWords : String :=
  "drop note; rename :a b // old\nkeep 'x y' 5MB"

theorem migrate_namedByWords : ∃ r r', Dialect.declared? namedByWords = none ∧ Recipe.ofText namedByWords = .ok r ∧
    IsLegible (some .builtin) namedByWords ∧ Recipe.ofText (migrate (some .builtin) namedByWords) = .ok r' ∧
    List.Forall₂ (KeptGroup (some .builtin)) r.groups r'.groups := by
  have hv : Dialect.declared? namedByWords = none := by decide +kernel
  have hl : IsLegible (some .builtin) namedByWords := by decide +kernel
  have hcounts : ∀ script ∈ (Script.read namedByWords).toOption, CountsAlike (some .builtin) namedByWords script := by
    decide +kernel
  cases hr : Recipe.ofText namedByWords with
  | ok r =>
    obtain ⟨script, r', hscript, hr', -, hkept⟩ := migrate_preserves hv hr hl
    rw [hscript] at hcounts
    exact ⟨r, r', hv, rfl, hl, hr', hkept (hcounts script rfl)⟩
  | error e =>
    have hread : (Recipe.ofText namedByWords).isOk = true := by decide +kernel
    rw [hr] at hread
    cases hread

example : migrate (some .builtin) namedByWords =
    "#pragma version 2.0; drop :note; rename :a :b // old\nkeep 'x y' 5MB" := by
  decide +kernel

/-! ## Recipes that are not legible -/

/-- Whether migration changes what a recipe without a version says. -/
def Altered (known : Option Registry) (text : String) : Prop :=
  Dialect.declared? text = none ∧ ∃ r, Recipe.ofText text = .ok r ∧
    ∀ r', Recipe.ofText (migrate known text) = .ok r' → ¬ List.Forall₂ (KeptGroup known) r.groups r'.groups

/-- A variant with the usual literal; tokens that mean the same look the same. -/
def appearance (t : Token) : TokenType × String :=
  (t.type, t.meaning.literal)

/-- Whether the arguments look the same, apart from words in slots that take columns. -/
def looksKept (known : Option Registry) (g g' : TokenGroup) : Bool :=
  g'.arguments.length == g.arguments.length && (List.range g.arguments.length).all fun i =>
    g'.arguments[i]?.map appearance == g.arguments[i]?.map appearance ||
      (g.arguments[i]?.map Token.type == some .text && decide (TakesColumn (acceptsAt (usageOf known g.name) i)))

theorem looksKept_of_keptGroup {g g' : TokenGroup} (h : KeptGroup known g g') : looksKept known g g' = true := by
  rw [looksKept, Bool.and_eq_true, beq_iff_eq, List.all_eq_true]
  refine ⟨h.length, fun i hi => ?_⟩
  have hi : i < g.arguments.length := List.mem_range.mp hi
  have hi' : i < g'.arguments.length := by
    rw [h.length]
    exact hi
  have hkept := h.arguments i _ _ (List.getElem?_eq_getElem hi) (List.getElem?_eq_getElem hi')
  rw [List.getElem?_eq_getElem hi, List.getElem?_eq_getElem hi']
  generalize g.arguments[i] = t at hkept
  generalize g'.arguments[i] = t' at hkept
  cases hkept with
  | same h => simp [appearance, Token.type, h]
  | column h => simp [Token.type, Meaning.type, h]

/-- Whether the groups of two texts that are read look the same. -/
def textLooksKept (known : Option Registry) (text text' : String) : Bool :=
  match Recipe.ofText text, Recipe.ofText text' with
  | .ok r, .ok r' => (r.groups.zip r'.groups).all fun g => looksKept known g.1 g.2
  | .ok _, .error _ => false
  | .error _, _ => true

theorem altered_of_textLooksKept (hv : Dialect.declared? text = none)
    (h : textLooksKept known text (migrate known text) = false) : Altered known text := by
  unfold textLooksKept at h
  cases hr : Recipe.ofText text with
  | error e => simp [hr] at h
  | ok r =>
    refine ⟨hv, r, hr, fun r' hr' hkept => ?_⟩
    rw [hr, hr'] at h
    dsimp only at h
    have hall : (r.groups.zip r'.groups).all (fun g => looksKept known g.1 g.2) = true := by
      rw [List.all_eq_true]
      exact fun g hg => looksKept_of_keptGroup ((List.forall₂_iff_zip.mp hkept).2 hg)
    rw [hall] at h
    cases h

/-- Migration breaks a list of texts, it makes columns within a text over two lines and within the text of a
property, and it counts two columns as one argument. -/
theorem altered_recipes :
    Altered (some .builtin) "x 'a','b'" ∧ Altered (some .builtin) "x 'a\ndrop b'" ∧
    Altered (some .builtin) "aggregate-stats prop:\x7ba='\x7d b'\x7d" ∧ Altered (some .builtin) "rename :a:b c" := by
  refine ⟨?_, ?_, ?_, ?_⟩
  · exact altered_of_textLooksKept (by decide +kernel) (by decide +kernel)
  · exact altered_of_textLooksKept (by decide +kernel) (by decide +kernel)
  · exact altered_of_textLooksKept (by decide +kernel) (by decide +kernel)
  · exact altered_of_textLooksKept (by decide +kernel) (by decide +kernel)

end RowRecipe.Migration
