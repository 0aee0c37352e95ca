import Mathlib.Logic.Function.Iterate
import RowRecipe.Compiler

/-!
# Passes over references

What a pass leaves alone and what it replaces, and the text on which passes settle: it is the first iterate
of the pass that a further pass leaves as it is. An expansion has no text exactly if there is no such
iterate.
-/

namespace RowRecipe.Dialect

/-- A text is refused only for the version it declares. -/
theorem isLegacy_error {text : String} {e : CompileError} (h : isLegacy text = .error e) :
    ∃ version, e = .unsupportedVersion version := by
  unfold isLegacy at h
  split at h
  · cases h
  · next version _ =>
    dsimp only at h
    split at h
    · cases h
    · split at h
      · cases h
      · cases h
        exact ⟨version, rfl⟩

end RowRecipe.Dialect

namespace RowRecipe.Macros

variable (m : Macros)

/-! ## References -/

/-- The characters of a reference. -/
def written (name : List Char) : List Char :=
  '$' :: '\x7b' :: (name ++ ['\x7d'])

theorem nameCut?_eq {cs name rest : List Char} (h : nameCut? cs = some (name, rest)) :
    cs = name ++ '\x7d' :: rest ∧ '$' ∉ name := by
  fun_induction nameCut? cs generalizing name with
  | case1 => cases h
  | case2 =>
    cases h
    simp
  | case3 => cases h
  | case4 c cs hc hd ih =>
    obtain ⟨⟨name', rest'⟩, hcut, heq⟩ := Option.map_eq_some_iff.mp h
    cases heq
    obtain ⟨rfl, hname⟩ := ih hcut
    refine ⟨rfl, ?_⟩
    simp only [List.mem_cons, not_or]
    exact ⟨fun he => hd (.inl he.symm), hname⟩

/-- A reference is written with a dollar sign and braces, and its name holds no dollar sign. -/
theorem reference?_eq {cs name rest : List Char} (h : reference? cs = some (name, rest)) :
    cs = written name ++ rest ∧ '$' ∉ name := by
  unfold reference? at h
  split at h
  · obtain ⟨rfl, hname⟩ := nameCut?_eq h
    exact ⟨by simp [written], hname⟩
  · cases h

theorem reference?_eq_none {c : Char} (hc : c ≠ '$') (cs : List Char) :
    reference? (c :: cs) = none := by
  unfold reference?
  split
  · next h => exact absurd (List.cons.inj h).1 hc
  · rfl

/-! ## One pass -/

@[simp] theorem pass_nil : m.pass [] = [] := by
  rw [pass]
  rfl

theorem pass_reference {cs name rest : List Char} (h : reference? cs = some (name, rest)) :
    m.pass cs = m.replacement name ++ m.pass rest := by
  rw [pass]
  split
  · next name' rest' h' =>
    rw [h] at h'
    cases h'
    rfl
  · next h' =>
    rw [h] at h'
    cases h'

theorem pass_cons {c : Char} {cs : List Char} (h : reference? (c :: cs) = none) :
    m.pass (c :: cs) = c :: m.pass cs := by
  rw [pass]
  split
  · next h' =>
    rw [h] at h'
    cases h'
  · rfl

/-- Characters other than dollar signs stay. -/
theorem pass_append {us : List Char} (h : '$' ∉ us) (cs : List Char) :
    m.pass (us ++ cs) = us ++ m.pass cs := by
  induction us with
  | nil => rfl
  | cons c us ih =>
    rw [List.mem_cons, not_or] at h
    have hc := reference?_eq_none (Ne.symm h.1) (us ++ cs)
    rw [List.cons_append, m.pass_cons hc, ih h.2]
    rfl

/-! ## All passes -/

/-- A pass leaves the text as it is. -/
def Settled (cs : List Char) : Prop := m.pass cs = cs

instance (cs : List Char) : Decidable (m.Settled cs) := inferInstanceAs (Decidable (_ = _))

theorem settle?_of_settled {cs : List Char} (h : m.Settled cs) : m.settle? cs = some cs := by
  rw [settle?]
  exact if_pos h

theorem settle?_pass {cs : List Char} : m.settle? (m.pass cs) = m.settle? cs := by
  by_cases h : m.Settled cs
  · rw [h]
  · rw [eq_comm, settle?]
    exact if_neg h

theorem settle?_iterate (n : Nat) (cs : List Char) : m.settle? (m.pass^[n] cs) = m.settle? cs := by
  induction n with
  | zero => rfl
  | succ n ih => rw [Function.iterate_succ_apply', settle?_pass, ih]

theorem settled_of_settle? {cs ds : List Char} (h : m.settle? cs = some ds) :
    (∃ n, ds = m.pass^[n] cs) ∧ m.Settled ds := by
  refine settle?.partial_correctness m (fun cs ds => (∃ n, ds = m.pass^[n] cs) ∧ m.Settled ds) ?_ cs ds h
  intro settle? ih cs ds h
  split at h
  · next hs =>
    cases h
    exact ⟨⟨0, rfl⟩, hs⟩
  · obtain ⟨⟨n, rfl⟩, hs⟩ := ih _ _ h
    exact ⟨⟨n + 1, rfl⟩, hs⟩

/-- Passes settle exactly if some iterate of the pass is settled. -/
theorem settle?_eq_some_iff {cs ds : List Char} :
    m.settle? cs = some ds ↔ (∃ n, ds = m.pass^[n] cs) ∧ m.Settled ds := by
  constructor
  · exact m.settled_of_settle?
  · rintro ⟨⟨n, rfl⟩, hs⟩
    rw [← settle?_iterate m n cs]
    exact m.settle?_of_settled hs

theorem settle?_eq_none_iff {cs : List Char} :
    m.settle? cs = none ↔ ∀ n, ¬ m.Settled (m.pass^[n] cs) := by
  rw [Option.eq_none_iff_forall_ne_some]
  constructor
  · intro h n hs
    exact h _ (m.settle?_eq_some_iff.mpr ⟨⟨n, rfl⟩, hs⟩)
  · intro h ds hd
    obtain ⟨⟨n, rfl⟩, hs⟩ := m.settle?_eq_some_iff.mp hd
    exact h n hs

/-! ## Expansion -/

theorem expand_eq_ok_iff {text s : String} :
    m.expand text = .ok s ↔ (∃ n, s.toList = m.pass^[n] text.toList) ∧ m.Settled s.toList := by
  rw [← settle?_eq_some_iff, expand]
  cases h : m.settle? text.toList with
  | none => simp [throw, throwThe, MonadExceptOf.throw]
  | some ds =>
    simp only [pure, Except.pure, Except.ok.injEq, Option.some.injEq]
    exact ⟨fun e => by rw [← e, String.toList_ofList], fun e => by rw [e, String.ofList_toList]⟩

theorem expand_eq_error_iff {text : String} {e : CompileError} :
    m.expand text = .error e ↔
      e = .unsettledMacros ∧ ∀ n, ¬ m.Settled (m.pass^[n] text.toList) := by
  rw [← settle?_eq_none_iff, expand]
  cases h : m.settle? text.toList with
  | none => simp [throw, throwThe, MonadExceptOf.throw, eq_comm]
  | some ds => simp [pure, Except.pure]

end RowRecipe.Macros

namespace RowRecipe.Compiler

variable (c : Compiler) {m : Macros} {text : String}

/-- Preparing a text ends if its expansion does. -/
theorem prepare_eq_unsettled_iff :
    c.prepare text m = .error .unsettledMacros ↔ m.expand text = .error .unsettledMacros := by
  unfold prepare
  cases h : m.expand text with
  | error e => simp [bind, Except.bind]
  | ok s =>
    simp only [bind, Except.bind, reduceCtorEq, iff_false]
    cases hl : Dialect.isLegacy (Dialect.declareLoadable c.loadDirectives s) with
    | error e =>
      obtain ⟨version, rfl⟩ := Dialect.isLegacy_error hl
      simp
    | ok legacy =>
      dsimp only
      split <;> simp [pure, Except.pure]

/-- A text of the current dialect that macros leave alone is read as it stands, if no names are declared for it. -/
theorem prepare_of_settled (hnames : c.loadDirectives = []) (hsettled : m.Settled text.toList)
    (hlegacy : Dialect.isLegacy text = .ok false) : c.prepare text m = .ok text := by
  have hexpand : m.expand text = .ok text := (Macros.expand_eq_ok_iff m).mpr ⟨⟨0, rfl⟩, hsettled⟩
  have hdeclared : Dialect.declareLoadable [] text = text := rfl
  rw [prepare, hexpand, hnames]
  simp only [bind, Except.bind, hdeclared, hlegacy]
  rfl

/-- Compiling a text ends if its expansion does. -/
theorem compile_eq_unsettled_iff :
    (c.compile text m).outcome = .error (.compile .unsettledMacros) ↔
      m.expand text = .error .unsettledMacros := by
  rw [← c.prepare_eq_unsettled_iff, compile]
  cases c.prepare text m with
  | error e => simp [throw, throwThe, MonadExceptOf.throw]
  | ok source =>
    dsimp only
    rcases Recipe.ofText source with e | recipe <;>
      exact iff_of_false (fun h => by cases h) (fun h => by cases h)

end RowRecipe.Compiler
