import RowRecipe.Proofs.Macro.Settling
import RowRecipe.Proofs.Migration.Plain
import RowRecipe.Proofs.Registry.Reachable
import RowRecipe.Proofs.Script.Versions

/-!
# Compiling legacy recipes

A legacy recipe of bare words compiles to the statements that are written in it. Nothing in such a text is a macro or
a pragma, so it is migrated as it stands, and every word has the meaning that the slot of its directive gives it.
-/

namespace RowRecipe

open Grammar Script Migration

variable {known : Option Registry} {source text : String}

/-! ## Groups -/

namespace Migration

/-- A group says what is written. The words of a directive that is not registered are no columns. -/
structure Says (r : Registry) (st : Written) (g : TokenGroup) : Prop where
  name : g.name = String.ofList st.name
  line : g.line = st.line
  arguments : g.arguments.map Token.meaning = st.meanings (some r)
  unregistered : r.class? g.name = none → g.arguments.map Token.meaning = st.arguments.map wordMeaning

/-- Without a class there are no slots, so every word is a truth value or a text. -/
theorem meanings_of_unregistered {r : Registry} (hr : r.Reachable) {st : Written}
    (h : r.class? (String.ofList st.name) = none) : st.meanings (some r) = st.arguments.map wordMeaning := by
  have husage : usageOf (some r) (String.ofList st.name) = none := by
    rcases hr.keeps (String.ofList st.name) with ⟨_, _, hclass, -⟩ | ⟨-, husage⟩
    · rw [h] at hclass
      cases hclass
    · exact husage
  have hmeaning (w : List Char) (i : Nat) : meaningOf (st.acceptsAt (some r) i) w = wordMeaning w := by
    have haccepts : st.acceptsAt (some r) i = [] := by
      rw [Written.acceptsAt, husage]
      rfl
    rw [haccepts, meaningOf, if_neg (by simp [TakesColumn])]
  have hfirst := List.map_map (f := Prod.fst) (g := wordMeaning) (l := st.arguments.zipIdx)
  rw [List.zipIdx_map_fst] at hfirst
  simp only [Written.meanings, hmeaning]
  exact hfirst.symm

/-- The groups of a recipe say what its statements denote. -/
theorem foldlM_of_denotes {r : Registry} (hr : r.Reachable) {sts : List Written} {read : List Statement}
    (h : List.Forall₂ (Denotes (some r) source) sts read) (before : Recipe) :
    ∃ gs, read.foldlM (Recipe.extend source) before = .ok { before with groups := before.groups ++ gs } ∧
      List.Forall₂ (Says r) sts gs := by
  induction h generalizing before with
  | nil => exact ⟨[], by rw [List.append_nil]; rfl, .nil⟩
  | @cons st _ sts read hst _ ih =>
    cases hst with
    | @directive name args ts hname hline hts hms =>
      have hextend := Recipe.extend_directive before name hts
      obtain ⟨gs, hgs, hsays⟩ := ih { before with groups := before.groups ++ [Recipe.groupOf source name args ts] }
      refine ⟨Recipe.groupOf source name args ts :: gs, ?_, .cons ⟨hname, congrArg _ hline, hms, ?_⟩ hsays⟩
      · refine Recipe.foldlM_cons_eq_ok.mpr ⟨_, hextend, ?_⟩
        rw [hgs, List.append_assoc, List.singleton_append]
      · intro hclass
        have hclass : r.class? name.text = none := hclass
        rw [hname] at hclass
        exact hms.trans (meanings_of_unregistered hr hclass)

end Migration

/-! ## Recipes -/

namespace Compiler

variable {c : Compiler}

/-- A legacy recipe of bare words compiles to version 2.0, and its groups are the statements that are written: on their
lines, with words as columns where their slots take columns, and with truth values and texts everywhere else. -/
theorem compile_legacy (hreg : c.registry.Reachable) (hmigrates : c.migratesLegacy = true)
    (hnames : c.loadDirectives = []) (hplain : ∀ st ∈ written text, st.IsPlain (some c.registry)) (macros : Macros) :
    ∃ source recipe, c.compile text macros = ⟨some source, .ok recipe⟩ ∧ recipe.version = some "2.0" ∧
      recipe.loadable = [] ∧ List.Forall₂ (Says c.registry) (written text) recipe.groups := by
  have hdollar : '$' ∉ text.toList := fun hmem => absurd (isLexical_of_mem hplain hmem (by decide)) (by decide +kernel)
  have hhash : '#' ∉ text.toList := fun hmem => absurd (isLexical_of_mem hplain hmem (by decide)) (by decide +kernel)
  -- preparing the text migrates it as it stands
  have hexpand : macros.expand text = .ok text := by
    have hsettled : macros.Settled text.toList := by
      have := macros.pass_append hdollar []
      rwa [List.append_nil, Macros.pass_nil, List.append_nil] at this
    exact (Macros.expand_eq_ok_iff macros).mpr ⟨⟨0, rfl⟩, hsettled⟩
  have hversion : Dialect.declared? text = none := by
    have hstart : Dialect.startsWithin [] text.toList = false := Dialect.startsWithin_eq_false hhash
    have := Dialect.versionIn?_append hstart
    rwa [List.append_nil] at this
  have hprepare : c.prepare text macros = .ok (migrate (some c.registry) text) := by
    have hdeclared : Dialect.declareLoadable [] text = text := rfl
    have hlegacy : Dialect.isLegacy text = .ok true := by
      rw [Dialect.isLegacy, hversion]
      rfl
    rw [prepare, hexpand, hnames]
    simp only [bind, Except.bind, hdeclared, hlegacy, hmigrates]
    rfl
  -- the migrated text is read statement by statement, behind its pragma
  obtain ⟨ps, hps, hdenotes⟩ := exists_scanned hplain
  obtain ⟨qs, hqs, hlocate⟩ := scanned_blank hps
  have hscanned := scanned_pragmaPieces hqs
  rw [← migrate_toList hversion] at hscanned
  have hstatements := statements_pragmaPieces_eq qs
  rw [hlocate] at hstatements
  have hbehind := hdenotes (migrate (some c.registry) text) ((Place.origin.after "#pragma version 2.0;".toList).next ' ')
    rfl
  obtain ⟨gs, hfold, hsays⟩ := foldlM_of_denotes hreg hbehind { Recipe.empty with version := some Dialect.target }
  have hread : Recipe.ofText (migrate (some c.registry) text) = .ok ⟨gs, some Dialect.target, []⟩ := by
    refine Recipe.ofText_eq_ok.mpr ⟨_, read_eq_ok.mpr ⟨_, hscanned, rfl⟩, ?_⟩
    rw [hstatements]
    exact Recipe.foldlM_cons_eq_ok.mpr ⟨_, rfl, hfold⟩
  refine ⟨migrate (some c.registry) text, ⟨gs, some Dialect.target, []⟩, ?_, rfl, rfl, hsays⟩
  rw [compile, hprepare]
  dsimp only
  rw [hread]
  rfl

/-- A recipe that names columns by bare words, with several statements on a line. -/
def bareWords : String := "keep name,user.id ;rename\told New;;\n drop TRUE\r\nmark word False"

theorem compile_bareWords : Registry.builtin.Reachable ∧
    (∀ st ∈ written bareWords, st.IsPlain (some .builtin)) ∧
    ∃ source recipe, compile ⟨.builtin, true, []⟩ bareWords [] = ⟨some source, .ok recipe⟩ ∧
      recipe.version = some "2.0" ∧ recipe.loadable = [] ∧
      List.Forall₂ (Says .builtin) (written bareWords) recipe.groups := by
  have hreg : Registry.builtin.Reachable := Registry.reachable_ofClasses builtinClasses
  have hplain : ∀ st ∈ written bareWords, st.IsPlain (some .builtin) := by decide +kernel
  exact ⟨hreg, hplain, compile_legacy (c := ⟨.builtin, true, []⟩) hreg rfl rfl hplain []⟩

example : (written bareWords).map (fun st => (st.line, st.meanings (some .builtin))) =
    [(1, [.columnNameList ["name", "user.id"]]), (1, [.columnName "old", .columnName "New"]),
      (2, [.boolean true]), (3, [.text "word", .boolean false])] := by
  rfl

end Compiler

end RowRecipe
