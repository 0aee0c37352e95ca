import Mathlib.Data.List.Nodup
import RowRecipe.Proofs.Grammar.Scanned
import RowRecipe.Recipe

/-!
# Texts that are recipes

A text is a recipe if it can be scanned and each of its statements can be added. What a statement adds, the
statements behind it keep.
-/

namespace RowRecipe

open Grammar Script

variable {source : String} {r : Recipe}

/-- A text is a script exactly if it can be scanned. -/
theorem Script.read_eq_ok {script : Script} :
    read source = .ok script ↔ ∃ ps, Scanned .statement source.toList ps ∧ script = ofLexemes (locate .origin ps) := by
  simp only [← scan_eq_ok_iff, read, lexemes]
  cases scan .statement source.toList with
  | ok ps => simp [Except.map, pure, Except.pure, eq_comm]
  | error stop => simp [Except.map, throw, throwThe, MonadExceptOf.throw]

theorem Recipe.ofText_eq_ok : ofText source = .ok r ↔
    ∃ script, Script.read source = .ok script ∧ script.statements.foldlM (extend source) .empty = .ok r := by
  rw [ofText]
  cases Script.read source with
  | ok script => simp [ofScript, bind, Except.bind]
  | error e => simp [bind, Except.bind]

/-- Characters are a recipe if they are scanned as pieces whose statements can be added. -/
theorem Recipe.ofText_ofList_eq_ok {cs : List Char} : ofText (String.ofList cs) = .ok r ↔
    ∃ ps, Scanned .statement cs ps ∧
      (ofLexemes (locate .origin ps)).statements.foldlM (extend (String.ofList cs)) .empty = .ok r := by
  simp only [ofText_eq_ok, Script.read_eq_ok, String.toList_ofList]
  constructor
  · rintro ⟨_, ⟨ps, hps, rfl⟩, hr⟩
    exact ⟨ps, hps, hr⟩
  · rintro ⟨ps, hps, hr⟩
    exact ⟨_, ⟨ps, hps, rfl⟩, hr⟩

/-! ## Arguments -/

namespace Script.Argument

variable {l : Lexeme} {t : Token}

theorem token_columns (first : Lexeme) (more : List Lexeme) : (columns first more).token source =
    .ok (.ofItems .columnName .columnNameList Lexeme.columnName first more) := rfl

theorem token_texts (first : Lexeme) (more : List Lexeme) : (texts first more).token source =
    .ok (.ofItems .text .textList Lexeme.unquoted first more) := rfl

theorem token_numbers (first : Lexeme) (more : List Lexeme) : (numbers first more).token source =
    .ok (.ofItems .numeric .numericList Lexeme.numeric first more) := rfl

theorem token_properties (opening : Lexeme) (entries : List Property) (closing : Lexeme) :
    (properties opening entries closing).token source =
      .ok ⟨.properties (Mapping.ofEntries (entries.map Property.entry)),
        Text.slice source opening.start.offset closing.stop⟩ := rfl

theorem token_quantity {kind : UnitKind} : (quantity kind l).token source = .ok t ↔
    ∃ q, Quantity.ofText kind l.text = .ok q ∧
      t = .of (match kind with | .size => .byteSize q | .time => .timeDuration q) := by
  rw [token.eq_def]
  dsimp only
  cases hq : Quantity.ofText kind l.text with
  | ok q => cases kind <;> simp [pure, Except.pure, eq_comm]
  | error e => simp [throw, throwThe, MonadExceptOf.throw]

theorem token_word (h : l.truth? = none) : (word l).token source = .ok ⟨.text l.text, l.text⟩ := by
  rw [token.eq_def]
  dsimp only
  rw [h]
  rfl

/-- Several arguments have tokens if each of them has one. -/
theorem mapM_token_cons {a : Argument} {args : List Argument} {ts : List Token} :
    (a :: args).mapM (token source) = .ok ts ↔
      ∃ t us, a.token source = .ok t ∧ args.mapM (token source) = .ok us ∧ ts = t :: us := by
  rw [List.mapM_cons]
  cases a.token source with
  | error e => simp [bind, Except.bind]
  | ok t => cases args.mapM (token source) <;> simp [bind, Except.bind, pure, Except.pure, eq_comm]

end Script.Argument

/-! ## Statements -/

namespace Recipe

variable {name : Lexeme} {args : List Argument} {ts : List Token}

theorem declare_groups (r : Recipe) (name : String) : (r.declare name).groups = r.groups := by
  unfold declare
  split <;> rfl

theorem foldl_declare_groups (r : Recipe) (ls : List Lexeme) :
    (ls.foldl (fun r l => r.declare l.text) r).groups = r.groups := by
  induction ls generalizing r with
  | nil => rfl
  | cons l ls ih => rw [List.foldl_cons, ih, declare_groups]

/-- The last lexeme of a directive. -/
def lastOf (name : Lexeme) (args : List Argument) : Lexeme :=
  (args.getLast?.map Argument.last).getD name

/-- The group of a directive whose arguments have tokens. -/
def groupOf (source : String) (name : Lexeme) (args : List Argument) (ts : List Token) : TokenGroup :=
  { name := name.text, arguments := ts, line := name.start.line
    source := Text.slice source name.start.offset (lastOf name args).stop }

/-- A directive whose arguments have tokens adds its group. -/
theorem extend_directive (r : Recipe) (name : Lexeme) (ht : args.mapM (Argument.token source) = .ok ts) :
    extend source r (.directive name args) = .ok { r with groups := r.groups ++ [groupOf source name args ts] } := by
  rw [extend, ht]
  rfl

theorem extend_directive_eq_ok {out : Recipe} (h : extend source r (.directive name args) = .ok out) :
    ∃ ts, args.mapM (Argument.token source) = .ok ts ∧
      out = { r with groups := r.groups ++ [groupOf source name args ts] } := by
  cases ht : args.mapM (Argument.token source) with
  | error e =>
    rw [extend, ht] at h
    cases h
  | ok ts =>
    rw [extend_directive r name ht] at h
    cases h
    exact ⟨ts, rfl, rfl⟩

theorem foldlM_cons_eq_ok {st : Statement} {sts : List Statement} {out : Recipe} :
    (st :: sts).foldlM (extend source) r = .ok out ↔
      ∃ r', extend source r st = .ok r' ∧ sts.foldlM (extend source) r' = .ok out := by
  rw [List.foldlM_cons]
  cases extend source r st <;> simp [bind, Except.bind]

/-- Every group comes from a directive. -/
theorem mem_groups {sts : List Statement} {out : Recipe} {g : TokenGroup}
    (h : sts.foldlM (extend source) r = .ok out) (hg : g ∈ out.groups) :
    g ∈ r.groups ∨ ∃ name args ts, .directive name args ∈ sts ∧ args.mapM (Argument.token source) = .ok ts ∧
      g = groupOf source name args ts := by
  induction sts generalizing r with
  | nil =>
    cases h
    exact .inl hg
  | cons st sts ih =>
    obtain ⟨r', hst, h⟩ := foldlM_cons_eq_ok.mp h
    rcases ih h with hmem | ⟨name, args, ts, hmem, hgroup⟩
    · cases st with
      | version number =>
        cases hst
        exact .inl hmem
      | load names =>
        cases hst
        rw [foldl_declare_groups] at hmem
        exact .inl hmem
      | directive name args =>
        obtain ⟨ts, hts, rfl⟩ := extend_directive_eq_ok hst
        rw [List.mem_append, List.mem_singleton] at hmem
        rcases hmem with hmem | rfl
        · exact .inl hmem
        · exact .inr ⟨name, args, ts, List.mem_cons_self, hts, rfl⟩
    · exact .inr ⟨name, args, ts, List.mem_cons_of_mem _ hmem, hgroup⟩

/-- Where a script has a meaning, the arguments of every directive have tokens. -/
theorem exists_tokens {sts : List Statement} {out : Recipe} (h : sts.foldlM (extend source) r = .ok out)
    (hst : .directive name args ∈ sts) : ∃ ts, args.mapM (Argument.token source) = .ok ts := by
  induction sts generalizing r with
  | nil => cases hst
  | cons st sts ih =>
    obtain ⟨r', hfirst, h⟩ := foldlM_cons_eq_ok.mp h
    rcases List.mem_cons.mp hst with rfl | hst
    · obtain ⟨ts, hts, -⟩ := extend_directive_eq_ok hfirst
      exact ⟨ts, hts⟩
    · exact ih h hst

/-- A script has a meaning as soon as the arguments of every directive have tokens. -/
theorem exists_foldlM {sts : List Statement}
    (h : ∀ name args, .directive name args ∈ sts → ∃ ts, args.mapM (Argument.token source) = .ok ts) (r : Recipe) :
    ∃ out, sts.foldlM (extend source) r = .ok out := by
  induction sts generalizing r with
  | nil => exact ⟨r, rfl⟩
  | cons st sts ih =>
    obtain ⟨r', hst⟩ : ∃ r', extend source r st = .ok r' := by
      cases st with
      | version number => exact ⟨_, rfl⟩
      | load names => exact ⟨_, rfl⟩
      | directive name args =>
        obtain ⟨ts, hts⟩ := h name args List.mem_cons_self
        exact ⟨_, extend_directive r name hts⟩
    obtain ⟨out, hout⟩ := ih (fun name args hmem => h name args (List.mem_cons_of_mem st hmem)) r'
    exact ⟨out, foldlM_cons_eq_ok.mpr ⟨r', hst, hout⟩⟩

/-! ## Declared names -/

theorem declare_nodup (h : r.loadable.Nodup) (name : String) : (r.declare name).loadable.Nodup := by
  unfold declare
  split
  next => exact h
  next hname =>
    rw [List.contains_iff_mem] at hname
    exact List.Nodup.append h (List.nodup_singleton name) (by simpa using hname)

theorem foldl_declare_nodup (h : r.loadable.Nodup) (ls : List Lexeme) :
    (ls.foldl (fun r l => r.declare l.text) r).loadable.Nodup := by
  induction ls generalizing r with
  | nil => exact h
  | cons l ls ih => exact ih (declare_nodup h l.text)

/-- No name is declared twice. -/
theorem nodup_loadable {sts : List Statement} {out : Recipe} (h : sts.foldlM (extend source) r = .ok out)
    (hr : r.loadable.Nodup) : out.loadable.Nodup := by
  induction sts generalizing r with
  | nil =>
    cases h
    exact hr
  | cons st sts ih =>
    obtain ⟨r', hst, h⟩ := foldlM_cons_eq_ok.mp h
    refine ih h ?_
    cases st with
    | version number =>
      cases hst
      exact hr
    | load names =>
      cases hst
      exact foldl_declare_nodup hr names
    | directive name args =>
      obtain ⟨ts, -, rfl⟩ := extend_directive_eq_ok hst
      exact hr

theorem nodup_of_ofText (h : ofText source = .ok r) : r.loadable.Nodup := by
  obtain ⟨script, -, hfold⟩ := ofText_eq_ok.mp h
  exact nodup_loadable hfold List.nodup_nil

end Recipe

end RowRecipe
