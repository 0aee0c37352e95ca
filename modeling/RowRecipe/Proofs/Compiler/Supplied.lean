import RowRecipe.Proofs.Macro.Settling
import RowRecipe.Proofs.Migration.Heading
import RowRecipe.Proofs.Unit.Conversion

/-!
# Names that the host supplies

Configured names are declared by a pragma on the first line, in front of everything that the recipe says. The pragma
goes through the choice of the dialect and through migration like any other text, and all that comes of it is the names.
-/

namespace RowRecipe

open Grammar Script Migration Recipe

variable {names : List String} {text source : String}

/-! ## The text with the names -/

namespace Dialect

/-- The characters of names without the blanks at their ends. -/
def nameChars (names : List String) : List (List Char) :=
  (names.map Text.trimmed).map String.toList

theorem ofList_nameChars (names : List String) : (nameChars names).map String.ofList = names.map Text.trimmed := by
  rw [nameChars, List.map_map]
  simp

/-- Names are declared by a pragma in front of the first line. -/
theorem declareLoadable_eq (hne : names ≠ []) (h : ∀ w ∈ nameChars names, isName w = true) (text : String) :
    declareLoadable names text = String.ofList (loadPragma (nameChars names) ++ ' ' :: text.toList) := by
  have hkept : (names.map Text.trimmed).filter (!·.isEmpty) = names.map Text.trimmed := by
    rw [List.filter_eq_self]
    intro n hn
    rw [Bool.not_eq_true', String.isEmpty_eq_false_iff]
    rintro rfl
    cases h _ (List.mem_map_of_mem hn)
  have hsome : (names.map Text.trimmed).isEmpty = false := by simpa using hne
  have hword : "#pragma load-directives ".toList = "#pragma".toList ++ ' ' :: ("load-directives".toList ++ [' ']) := by
    decide
  have hassoc (u v x y : List Char) : u ++ ' ' :: (v ++ [' ']) ++ x ++ [';', ' '] ++ y =
      u ++ ' ' :: (v ++ ' ' :: (x ++ ';' :: ' ' :: y)) := by simp
  rw [loadPragma_append]
  simp only [declareLoadable, hkept, hsome, Bool.false_eq_true, if_false]
  apply String.toList_inj.mp
  rw [String.toList_ofList, String.toList_append, String.toList_append, String.toList_append, hword,
    String.toList_intercalate]
  exact hassoc _ _ _ _

/-- The declared names do not change the dialect. -/
theorem isLegacy_declareLoadable (h : ∀ w ∈ nameChars names, isName w = true) (text : String) :
    isLegacy (declareLoadable names text) = isLegacy text := by
  by_cases hne : names = []
  · rw [hne]
    rfl
  · have hdeclared : declared? (declareLoadable names text) = declared? text := by
      rw [declareLoadable_eq hne h, declared?, String.toList_ofList]
      exact versionIn?_loadPragma h
    rw [isLegacy, hdeclared]
    rfl

end Dialect

/-! ## Compiling it -/

namespace Compiler

variable (c : Compiler) {macros : Macros} {r : Recipe}

/-- The text of a recipe in the current dialect, as far as legacy recipes are migrated. -/
def current (legacy : Bool) (text : String) : String :=
  if legacy && c.migratesLegacy then migrate (some c.registry) text else text

theorem outcome_eq_ok : (c.compile text macros).outcome = .ok r ↔ ∃ expanded legacy,
    macros.expand text = .ok expanded ∧
      Dialect.isLegacy (Dialect.declareLoadable c.loadDirectives expanded) = .ok legacy ∧
      ofText (c.current legacy (Dialect.declareLoadable c.loadDirectives expanded)) = .ok r := by
  cases hexpand : macros.expand text with
  | error e => simp [compile, prepare, hexpand, bind, Except.bind, throw, throwThe, MonadExceptOf.throw]
  | ok expanded =>
    cases hlegacy : Dialect.isLegacy (Dialect.declareLoadable c.loadDirectives expanded) with
    | error e => simp [compile, prepare, hexpand, hlegacy, bind, Except.bind, throw, throwThe, MonadExceptOf.throw]
    | ok legacy =>
      have hprepare : c.prepare text macros =
          .ok (c.current legacy (Dialect.declareLoadable c.loadDirectives expanded)) := by
        rw [prepare, hexpand, current]
        simp only [bind, Except.bind, hlegacy]
        split <;> rfl
      have hcompile : (c.compile text macros).outcome =
          (ofText (c.current legacy (Dialect.declareLoadable c.loadDirectives expanded))).mapError .parse := by
        rw [compile, hprepare]
      rw [hcompile, mapError_eq_ok_iff]
      constructor
      · intro hr
        exact ⟨expanded, legacy, rfl, hlegacy, hr⟩
      · rintro ⟨_, _, ⟨⟩, hlegacy', hr⟩
        cases hlegacy.symm.trans hlegacy'
        exact hr

/-- Behind the declared names a recipe says what it says without them. -/
theorem ofText_current (h : ∀ w ∈ Dialect.nameChars names, isName w = true) (legacy : Bool) :
    ofText (c.current legacy (Dialect.declareLoadable names text)) = .ok r ↔
      ∃ q, ofText (c.current legacy text) = .ok q ∧ r = q.declaredBefore (names.map Text.trimmed) := by
  by_cases hne : names = []
  · have hsame {q : Recipe} (hq : ofText (c.current legacy text) = .ok q) : q.declaredBefore [] = q := by
      rw [declaredBefore, List.nil_append, eraseDups_of_nodup (nodup_of_ofText hq)]
    rw [hne]
    constructor
    · intro hr
      exact ⟨r, hr, (hsame hr).symm⟩
    · rintro ⟨q, hq, rfl⟩
      exact (hsame hq).symm ▸ hq
  · have hchars : Dialect.nameChars names ≠ [] := by simpa [Dialect.nameChars] using hne
    rw [Dialect.declareLoadable_eq hne h, current, current, ← Dialect.ofList_nameChars]
    split
    next =>
      rw [migrate_eq, migrate_eq, String.toList_ofList, update_loadPragma hchars h, update_blank,
        ofText_declaring_loadPragma hchars h]
    next =>
      rw [(heading_load hchars h).ofText_blank_eq_ok, String.ofList_toList]
      simp only [followedBy_names]

/-- Configured names only declare names. A recipe compiles with them if and only if it compiles without them, to the
same groups and the same version, and its loadable names are the configured ones and its own behind them, each once. -/
theorem outcome_loadDirectives (text : String) (macros : Macros)
    (hnames : ∀ n ∈ c.loadDirectives, nameCut? (Text.trimmed n).toList = some ((Text.trimmed n).toList, []))
    (r : Recipe) :
    (c.compile text macros).outcome = .ok r ↔
      ∃ q, (compile { c with loadDirectives := [] } text macros).outcome = .ok q ∧ r.groups = q.groups ∧
        r.version = q.version ∧ r.loadable = (c.loadDirectives.map Text.trimmed ++ q.loadable).eraseDups := by
  have hchars : ∀ w ∈ Dialect.nameChars c.loadDirectives, isName w = true := by
    simp only [Dialect.nameChars, List.forall_mem_map]
    exact fun n hn => isName_of_nameCut? (hnames n hn)
  have hwithout (expanded : String) : Dialect.declareLoadable [] expanded = expanded := rfl
  simp only [outcome_eq_ok, hwithout, Dialect.isLegacy_declareLoadable hchars]
  constructor
  · rintro ⟨expanded, legacy, hexpand, hlegacy, hr⟩
    obtain ⟨q, hq, rfl⟩ := (c.ofText_current hchars legacy).mp hr
    exact ⟨q, ⟨expanded, legacy, hexpand, hlegacy, hq⟩, rfl, rfl, rfl⟩
  · rintro ⟨q, ⟨expanded, legacy, hexpand, hlegacy, hq⟩, hgroups, hversion, hloadable⟩
    have hr : r = q.declaredBefore (c.loadDirectives.map Text.trimmed) := by
      cases r
      cases hgroups
      cases hversion
      cases hloadable
      rfl
    exact ⟨expanded, legacy, hexpand, hlegacy, (c.ofText_current hchars legacy).mpr ⟨q, hq, hr⟩⟩

/-- A host that writes blanks around some names and gives one name twice. -/
def supplying : Compiler := ⟨.builtin, true, [" crop", "trim\t", "crop"]⟩

/-- A legacy recipe that declares names of its own. -/
def selfDeclaring : String :=
  "#pragma load-directives trim, parse-x; rename old new\n// done\nkeep a,b"

theorem outcome_loadDirectives_supplying :
    (∀ n ∈ supplying.loadDirectives, nameCut? (Text.trimmed n).toList = some ((Text.trimmed n).toList, [])) ∧
    ∃ r q, (supplying.compile selfDeclaring []).outcome = .ok r ∧
      (compile { supplying with loadDirectives := [] } selfDeclaring []).outcome = .ok q ∧
      (r.groups = q.groups ∧ r.version = q.version ∧
        r.loadable = (supplying.loadDirectives.map Text.trimmed ++ q.loadable).eraseDups) ∧
      r.loadable = ["crop", "trim", "parse-x"] := by
  have hnames : ∀ n ∈ supplying.loadDirectives,
      nameCut? (Text.trimmed n).toList = some ((Text.trimmed n).toList, []) := by decide +kernel
  have hexpand : Macros.expand [] selfDeclaring = .ok selfDeclaring :=
    (Macros.expand_eq_ok_iff _).mpr ⟨⟨0, rfl⟩, by decide +kernel⟩
  have hread : (ofText (current { supplying with loadDirectives := [] } true selfDeclaring)).toOption.map (·.loadable) =
      some ["trim", "parse-x"] := by decide +kernel
  obtain ⟨q, hq, hloadable⟩ := exists_eq_ok_of_toOption _ _ hread
  have hwithout : (compile { supplying with loadDirectives := [] } selfDeclaring []).outcome = .ok q :=
    (outcome_eq_ok _).mpr ⟨selfDeclaring, true, hexpand, rfl, hq⟩
  have hall : (["crop", "trim", "crop"] ++ ["trim", "parse-x"]).eraseDups = ["crop", "trim", "parse-x"] := by decide
  have htrimmed : supplying.loadDirectives.map Text.trimmed = ["crop", "trim", "crop"] := by decide +kernel
  refine ⟨hnames, q.declaredBefore (supplying.loadDirectives.map Text.trimmed), q, ?_, hwithout, ⟨rfl, rfl, rfl⟩, ?_⟩
  · exact (supplying.outcome_loadDirectives selfDeclaring [] hnames _).mpr ⟨q, hwithout, rfl, rfl, rfl⟩
  · rw [declaredBefore, htrimmed, hloadable, hall]

end Compiler

end RowRecipe
