import RowRecipe.Proofs.Compiler.Filling
import RowRecipe.Proofs.Mapping

/-!
# Open names over many calls

A host can offer classes again and again, and any of its calls may fail. A call fills the open names that it has
classes for, in order, up to the first class that fails; a directive that stands is never touched. So every open name
is filled by the first call that comes as far as its place and makes a directive of it. Two calls that succeed do
what one call with the classes of both does.
-/

namespace RowRecipe

namespace Mapping

variable {α : Type}

/-- Both mappings as one. Where both have a key, the first one counts. -/
def preferring (m n : Mapping α) : Mapping α :=
  m ++ n.filter fun e => !m.has e.1

theorem get?_preferring (m n : Mapping α) (key : String) :
    get? (preferring m n) key = (get? m key).or (get? n key) := by
  unfold preferring
  rw [get?_append, get?_filter n (fun key => !has m key)]
  cases h : get? m key <;> simp [has, h]

end Mapping

namespace CompiledRecipe

variable {classes : Mapping DirectiveClass} {s : Step} {ss ss' : List Step} {i : Nat} {e : ExternalDirective}
  {d : Directive}

/-! ## One call -/

/-- How a call ends: every step is filled, or the steps in front of the first one whose class fails. -/
inductive Fills (classes : Mapping DirectiveClass) : List Step → Option RecipeError → List Step → Prop
  | all {ss ss' : List Step} (filled : List.Forall₂ (fun s s' => fill classes s = .ok s') ss ss') :
      Fills classes ss none ss'
  | upTo {done done' behind : List Step} {e : ExternalDirective} {c : DirectiveClass} {error : RecipeError}
      (filled : List.Forall₂ (fun s s' => fill classes s = .ok s') done done')
      (named : classes.get? e.name = some c) (fails : c.instantiate e.group none = .error error) :
      Fills classes (done ++ .external e :: behind) (some error) (done' ++ .external e :: behind)

theorem fill_eq_error {error : RecipeError} (h : fill classes s = .error error) :
    ∃ e c, s = .external e ∧ classes.get? e.name = some c ∧ c.instantiate e.group none = .error error := by
  cases s with
  | directive d => cases h
  | external e =>
    simp only [fill] at h
    split at h
    next c hc =>
      refine ⟨e, c, rfl, hc, ?_⟩
      cases hi : c.instantiate e.group none <;> simp_all [Except.map]
    next => cases h

theorem fills_resolveSteps (classes : Mapping DirectiveClass) (ss : List Step) :
    Fills classes ss (resolveSteps classes ss).1 (resolveSteps classes ss).2 := by
  induction ss with
  | nil => exact .all .nil
  | cons s ss ih =>
    rw [resolveSteps_cons]
    cases hs : fill classes s with
    | error error =>
      obtain ⟨e, c, rfl, hc, hi⟩ := fill_eq_error hs
      have hnone : List.Forall₂ (fun s s' => fill classes s = .ok s') [] [] := .nil
      exact .upTo hnone hc hi
    | ok s' =>
      dsimp only
      generalize (resolveSteps classes ss).1 = error? at ih
      generalize (resolveSteps classes ss).2 = ss' at ih
      cases ih with
      | all filled => exact .all (.cons hs filled)
      | upTo filled hc hi => exact .upTo (.cons hs filled) hc hi

/-- The call comes as far as the place: no class fails in front of it. -/
def Reaches (classes : Mapping DirectiveClass) (ss : List Step) (i : Nat) : Prop :=
  ∀ s ∈ ss.take i, ∃ s', fill classes s = .ok s'

/-- The call comes as far as the place and makes a directive for the open name there. -/
structure Serves (classes : Mapping DirectiveClass) (ss : List Step) (i : Nat) (e : ExternalDirective)
    (d : Directive) : Prop where
  reached : Reaches classes ss i
  made : ∃ c, classes.get? e.name = some c ∧ c.instantiate e.group none = .ok d

theorem reaches_cons (s : Step) (ss : List Step) (i : Nat) :
    Reaches classes (s :: ss) (i + 1) ↔ (∃ s', fill classes s = .ok s') ∧ Reaches classes ss i := by
  simp [Reaches]

theorem fill_eq_directive : fill classes (.external e) = .ok (.directive d) ↔
    ∃ c, classes.get? e.name = some c ∧ c.instantiate e.group none = .ok d := by
  simp only [fill]
  cases classes.get? e.name with
  | none => simp
  | some c => cases hi : c.instantiate e.group none <;> simp [Except.map, hi]

/-- Filling leaves an open name as it is, or makes a directive of it. -/
theorem fill_external {s' : Step} (h : fill classes (.external e) = .ok s') :
    s' = .external e ∨ ∃ d, s' = .directive d := by
  simp only [fill] at h
  split at h
  next c _ =>
    cases hi : c.instantiate e.group none with
    | error error => simp [hi, Except.map] at h
    | ok d =>
      simp only [hi, Except.map, Except.ok.injEq] at h
      exact .inr ⟨d, h.symm⟩
  next => exact .inl (Except.ok.inj h).symm

/-- A step that the call reaches and can fill is filled; every other step stays. -/
theorem getElem?_resolveSteps (classes : Mapping DirectiveClass) (h : ss[i]? = some s) :
    (∃ s', Reaches classes ss i ∧ fill classes s = .ok s' ∧ (resolveSteps classes ss).2[i]? = some s') ∨
      ((Reaches classes ss i → ∃ error, fill classes s = .error error) ∧
        (resolveSteps classes ss).2[i]? = some s) := by
  induction ss generalizing i with
  | nil => simp at h
  | cons first ss ih =>
    rw [resolveSteps_cons]
    cases i with
    | zero =>
      obtain rfl : first = s := by simpa using h
      cases hs : fill classes first with
      | ok s' => exact .inl ⟨s', by simp [Reaches], rfl, rfl⟩
      | error error => exact .inr ⟨fun _ => ⟨error, rfl⟩, rfl⟩
    | succ i =>
      have h : ss[i]? = some s := by simpa using h
      simp only [reaches_cons]
      cases hs : fill classes first with
      | error error => simp [h]
      | ok first' => simpa using ih h

theorem length_resolveSteps (classes : Mapping DirectiveClass) (ss : List Step) :
    (resolveSteps classes ss).2.length = ss.length := by
  have h := fills_resolveSteps classes ss
  generalize (resolveSteps classes ss).1 = error? at h
  generalize (resolveSteps classes ss).2 = ss' at h ⊢
  cases h with
  | all filled => exact filled.length_eq.symm
  | upTo filled _ _ => simp [filled.length_eq]

theorem getElem?_resolveSteps_directive (h : ss[i]? = some (.directive d)) :
    (resolveSteps classes ss).2[i]? = some (.directive d) := by
  rcases getElem?_resolveSteps classes h with ⟨s', -, hs', hi⟩ | ⟨-, hi⟩
  · cases hs'
    exact hi
  · exact hi

theorem getElem?_resolveSteps_served (h : ss[i]? = some (.external e)) (hd : Serves classes ss i e d) :
    (resolveSteps classes ss).2[i]? = some (.directive d) := by
  have hfill := fill_eq_directive.mpr hd.made
  rcases getElem?_resolveSteps classes h with ⟨s', -, hs', hi⟩ | ⟨hfails, -⟩
  · rw [hfill] at hs'
    cases hs'
    exact hi
  · obtain ⟨error, herror⟩ := hfails hd.reached
    rw [hfill] at herror
    cases herror

theorem getElem?_resolveSteps_unserved (h : ss[i]? = some (.external e)) (hd : ∀ d, ¬Serves classes ss i e d) :
    (resolveSteps classes ss).2[i]? = some (.external e) := by
  rcases getElem?_resolveSteps classes h with ⟨s', hreached, hs', hi⟩ | ⟨-, hi⟩
  · rcases fill_external hs' with rfl | ⟨d, rfl⟩
    · exact hi
    · exact absurd ⟨hreached, fill_eq_directive.mp hs'⟩ (hd d)
  · exact hi

/-! ## Many calls -/

variable {r : CompiledRecipe} {calls : List (Mapping DirectiveClass)} {k : Nat}

/-- The recipe behind the calls, of which some may fail. -/
def resolveAll (r : CompiledRecipe) (calls : List (Mapping DirectiveClass)) : CompiledRecipe :=
  calls.foldl (fun r classes => (r.resolve classes).2) r

/-- The call number `k` comes as far as the place and makes a directive for the open name there. -/
def ServedAt (r : CompiledRecipe) (calls : List (Mapping DirectiveClass)) (k i : Nat) (e : ExternalDirective)
    (d : Directive) : Prop :=
  ∃ classes, calls[k]? = some classes ∧ Serves classes (r.resolveAll (calls.take k)).steps i e d

/-- The call number `k` puts a directive at the place of an open name. -/
def FilledAt (r : CompiledRecipe) (calls : List (Mapping DirectiveClass)) (k i : Nat) (d : Directive) : Prop :=
  ∃ e, (r.resolveAll (calls.take k)).steps[i]? = some (.external e) ∧ ServedAt r calls k i e d

theorem servedAt_zero : ServedAt r (classes :: calls) 0 i e d ↔ Serves classes r.steps i e d := by
  simp [ServedAt, resolveAll]

theorem servedAt_succ :
    ServedAt r (classes :: calls) (k + 1) i e d ↔ ServedAt (r.resolve classes).2 calls k i e d := by
  simp [ServedAt, resolveAll]

theorem resolveAll_take_succ (h : calls[k]? = some classes) :
    r.resolveAll (calls.take (k + 1)) = ((r.resolveAll (calls.take k)).resolve classes).2 := by
  simp [resolveAll, List.take_add_one, h]

theorem length_resolveAll (r : CompiledRecipe) (calls : List (Mapping DirectiveClass)) :
    (r.resolveAll calls).steps.length = r.steps.length := by
  induction calls generalizing r with
  | nil => rfl
  | cons classes calls ih => exact (ih _).trans (length_resolveSteps classes r.steps)

theorem recipe_resolveAll (r : CompiledRecipe) (calls : List (Mapping DirectiveClass)) :
    (r.resolveAll calls).recipe = r.recipe := by
  induction calls generalizing r with
  | nil => rfl
  | cons classes calls ih => exact ih (r.resolve classes).2

theorem resolveAll_directive (h : r.steps[i]? = some (.directive d)) (calls : List (Mapping DirectiveClass)) :
    (r.resolveAll calls).steps[i]? = some (.directive d) := by
  induction calls generalizing r with
  | nil => exact h
  | cons classes calls ih => exact ih (r := (r.resolve classes).2) (getElem?_resolveSteps_directive h)

/-- An open name stays open as long as no call serves it; the first call that does fills it for good. -/
theorem resolveAll_external (h : r.steps[i]? = some (.external e)) (calls : List (Mapping DirectiveClass)) :
    ((∀ k d, ¬ServedAt r calls k i e d) ∧ (r.resolveAll calls).steps[i]? = some (.external e)) ∨
      ∃ k d, ServedAt r calls k i e d ∧ (∀ j < k, ∀ d', ¬ServedAt r calls j i e d') ∧
        (r.resolveAll calls).steps[i]? = some (.directive d) := by
  induction calls generalizing r with
  | nil => exact .inl ⟨by simp [ServedAt], h⟩
  | cons classes calls ih =>
    by_cases hserved : ∃ d, Serves classes r.steps i e d
    · obtain ⟨d, hd⟩ := hserved
      refine .inr ⟨0, d, servedAt_zero.mpr hd, by simp, ?_⟩
      exact resolveAll_directive (r := (r.resolve classes).2) (getElem?_resolveSteps_served h hd) calls
    · have hunserved := not_exists.mp hserved
      rcases ih (r := (r.resolve classes).2) (getElem?_resolveSteps_unserved h hunserved) with
        ⟨hnever, hopen⟩ | ⟨k, d, hk, hearlier, hfilled⟩
      · refine .inl ⟨fun k d hk => ?_, hopen⟩
        cases k with
        | zero => exact hunserved d (servedAt_zero.mp hk)
        | succ k => exact hnever k d (servedAt_succ.mp hk)
      · refine .inr ⟨k + 1, d, servedAt_succ.mpr hk, fun j hj d' hj' => ?_, hfilled⟩
        cases j with
        | zero => exact hunserved d' (servedAt_zero.mp hj')
        | succ j => exact hearlier j (by omega) d' (servedAt_succ.mp hj')

theorem resolveAll_append (r : CompiledRecipe) (first later : List (Mapping DirectiveClass)) :
    r.resolveAll (first ++ later) = (r.resolveAll first).resolveAll later :=
  List.foldl_append

/-- The place that a call fills holds the directive from then on. -/
theorem FilledAt.stays {j : Nat} (h : FilledAt r calls k i d) (hj : k < j) :
    (r.resolveAll (calls.take j)).steps[i]? = some (.directive d) := by
  obtain ⟨e, hopen, classes, hk, hserves⟩ := h
  have hnext : (r.resolveAll (calls.take (k + 1))).steps[i]? = some (.directive d) := by
    rw [resolveAll_take_succ hk]
    exact getElem?_resolveSteps_served hopen hserves
  obtain ⟨more, hmore⟩ : calls.take (k + 1) <+: calls.take j := List.take_prefix_take_left (by omega)
  rw [← hmore, resolveAll_append]
  exact resolveAll_directive hnext more

/-- No place is filled twice. -/
theorem FilledAt.unique {j : Nat} {d' : Directive} (h : FilledAt r calls k i d) (h' : FilledAt r calls j i d') :
    k = j := by
  by_contra hne
  rcases Nat.lt_or_gt_of_ne hne with hlt | hlt
  · obtain ⟨e, hopen, -⟩ := h'
    simp [h.stays hlt] at hopen
  · obtain ⟨e, hopen, -⟩ := h
    simp [h'.stays hlt] at hopen

/-- A step stays as it is or becomes a directive. -/
theorem forall₂_resolveAll (r : CompiledRecipe) (calls : List (Mapping DirectiveClass)) :
    List.Forall₂ (fun s s' => s' = s ∨ ∃ d, s' = Step.directive d) r.steps (r.resolveAll calls).steps := by
  rw [List.forall₂_iff_get]
  refine ⟨(length_resolveAll r calls).symm, fun i hi hi' => ?_⟩
  have hget : (r.resolveAll calls).steps[i]? = some ((r.resolveAll calls).steps.get ⟨i, hi'⟩) := by simp
  have hstep : r.steps[i]? = some (r.steps.get ⟨i, hi⟩) := by simp
  cases hs : r.steps.get ⟨i, hi⟩ with
  | directive d =>
    rw [hs] at hstep
    rw [resolveAll_directive hstep calls] at hget
    exact .inl (Option.some.inj hget).symm
  | external e =>
    rw [hs] at hstep
    rcases resolveAll_external hstep calls with ⟨-, hopen⟩ | ⟨k, d, -, -, hfilled⟩
    · rw [hopen] at hget
      exact .inl (Option.some.inj hget).symm
    · rw [hfilled] at hget
      exact .inr ⟨d, (Option.some.inj hget).symm⟩

/-- The names of the open steps that no call has made a directive of, in order. -/
def remaining (before after : List Step) : List String :=
  ((before.zip after).filter fun p => p.2.directive?.isNone).filterMap fun p => p.1.openName?

theorem unresolved_resolveAll (r : CompiledRecipe) (calls : List (Mapping DirectiveClass)) :
    (r.resolveAll calls).unresolved = remaining r.steps (r.resolveAll calls).steps := by
  have hsteps := forall₂_resolveAll r calls
  unfold unresolved remaining
  generalize r.steps = before at hsteps ⊢
  generalize (r.resolveAll calls).steps = after at hsteps ⊢
  induction hsteps with
  | nil => rfl
  | @cons s s' _ _ hs _ ih =>
    rcases hs with rfl | ⟨d, rfl⟩
    · cases s' with
      | directive d => exact ih
      | external e => exact congrArg (e.name :: ·) ih
    · cases s <;> exact ih

/-! ## Two calls as one -/

/-- Filling from two mappings, the first preferred, is filling from the first and then from the second. -/
theorem fill_preferring (f g : Mapping DirectiveClass) (s : Step) :
    fill (f.preferring g) s = fill f s >>= fill g := by
  cases s with
  | directive d => rfl
  | external e =>
    simp only [fill, Mapping.get?_preferring]
    cases hf : f.get? e.name with
    | none => rfl
    | some c => cases hi : c.instantiate e.group none <;> simp [Except.map, bind, Except.bind, fill, hi]

theorem resolveSteps_cons_eq_none {out : List Step} : resolveSteps classes (s :: ss) = (none, out) ↔
    ∃ s' ss', fill classes s = .ok s' ∧ resolveSteps classes ss = (none, ss') ∧ out = s' :: ss' := by
  rw [resolveSteps_cons]
  cases fill classes s with
  | error error => simp
  | ok s' =>
    rcases resolveSteps classes ss with ⟨error?, ss'⟩
    simp [eq_comm]

theorem resolveSteps_preferring {f g : Mapping DirectiveClass} :
    (∃ ss₁, resolveSteps f ss = (none, ss₁) ∧ resolveSteps g ss₁ = (none, ss')) ↔
      resolveSteps (f.preferring g) ss = (none, ss') := by
  induction ss generalizing ss' with
  | nil => simp [resolveSteps]
  | cons s ss ih =>
    simp only [resolveSteps_cons_eq_none, fill_preferring, ← ih]
    constructor
    · rintro ⟨_, ⟨s₁, ss₁, hs₁, hss₁, rfl⟩, hboth⟩
      obtain ⟨s', ss', hs', hss', rfl⟩ := resolveSteps_cons_eq_none.mp hboth
      exact ⟨s', ss', by simpa [hs₁, bind, Except.bind] using hs', ⟨ss₁, hss₁, hss'⟩, rfl⟩
    · rintro ⟨s', out, hs', ⟨ss₁, hss₁, hout⟩, rfl⟩
      cases hs₁ : fill f s with
      | error error => simp [hs₁, bind, Except.bind] at hs'
      | ok s₁ =>
        have hs' : fill g s₁ = .ok s' := by simpa [hs₁, bind, Except.bind] using hs'
        exact ⟨s₁ :: ss₁, ⟨s₁, ss₁, rfl, hss₁, rfl⟩, resolveSteps_cons_eq_none.mpr ⟨s', out, hs', hout, rfl⟩⟩

theorem resolve_eq_none {r' : CompiledRecipe} : r.resolve classes = (none, r') ↔
    resolveSteps classes r.steps = (none, r'.steps) ∧ r'.recipe = r.recipe := by
  rcases r' with ⟨steps, recipe⟩
  simp [resolve, Prod.ext_iff, eq_comm, and_assoc]

/-! ## What calls leave -/

/-- What has become of every step of a compiled recipe behind calls of which some may have failed. -/
structure Accounted (r : CompiledRecipe) (calls : List (Mapping DirectiveClass)) : Prop where
  length : (r.resolveAll calls).steps.length = r.steps.length
  recipe : (r.resolveAll calls).recipe = r.recipe
  directive {i : Nat} {d : Directive} (h : r.steps[i]? = some (.directive d)) :
    (r.resolveAll calls).steps[i]? = some (.directive d)
  /-- The first call that comes as far as an open name and makes a directive of it settles its place. -/
  external {i : Nat} {e : ExternalDirective} (h : r.steps[i]? = some (.external e)) :
    ((∀ k d, ¬ServedAt r calls k i e d) ∧ (r.resolveAll calls).steps[i]? = some (.external e)) ∨
      ∃ k d, ServedAt r calls k i e d ∧ (∀ j < k, ∀ d', ¬ServedAt r calls j i e d') ∧
        (r.resolveAll calls).steps[i]? = some (.directive d)
  once {i j k : Nat} {d d' : Directive} (h : FilledAt r calls j i d) (h' : FilledAt r calls k i d') : j = k
  /-- A call that fails has filled the open names it has classes for up to the one that fails. -/
  call {k : Nat} {classes : Mapping DirectiveClass} (h : calls[k]? = some classes) :
    Fills classes (r.resolveAll (calls.take k)).steps ((r.resolveAll (calls.take k)).resolve classes).1
      (r.resolveAll (calls.take (k + 1))).steps
  unresolved : (r.resolveAll calls).unresolved = remaining r.steps (r.resolveAll calls).steps

/-- Whatever classes a host offers, and in how many calls, every step is accounted for. Two calls succeed exactly if
one call with the classes of both does, those of the first preferred, and then they leave the same recipe. -/
theorem accounted_resolving (r : CompiledRecipe) (calls : List (Mapping DirectiveClass)) :
    Accounted r calls ∧
      ∀ f g r', (∃ r₁, r.resolve f = (none, r₁) ∧ r₁.resolve g = (none, r')) ↔
        r.resolve (f.preferring g) = (none, r') := by
  constructor
  · exact {
      length := length_resolveAll r calls
      recipe := recipe_resolveAll r calls
      directive := fun h => resolveAll_directive h calls
      external := fun h => resolveAll_external h calls
      once := FilledAt.unique
      call := fun h => by
        rw [resolveAll_take_succ h]
        exact fills_resolveSteps _ _
      unresolved := unresolved_resolveAll r calls }
  · intro f g r'
    rw [resolve_eq_none, ← resolveSteps_preferring]
    constructor
    · rintro ⟨r₁, hf, hg⟩
      obtain ⟨hf, hr₁⟩ := resolve_eq_none.mp hf
      obtain ⟨hg, hr'⟩ := resolve_eq_none.mp hg
      exact ⟨⟨r₁.steps, hf, hg⟩, hr'.trans hr₁⟩
    · rintro ⟨⟨ss₁, hf, hg⟩, hr'⟩
      exact ⟨⟨ss₁, r.recipe⟩, resolve_eq_none.mpr ⟨hf, rfl⟩, resolve_eq_none.mpr ⟨hg, hr'⟩⟩

end CompiledRecipe

end RowRecipe
