import RowRecipe.Pipeline

/-!
# Chains of directives

The way of a batch through the directives of a pipeline, said without the pipeline: either every directive
hands on rows, each from the rows of the one before, or a first one stops and none behind it runs.
-/

namespace RowRecipe

/-- Every directive hands on rows, each from the rows of the one before. -/
inductive Passes (context : Context) :
    List Directive → List Row → Session → List Row → Session → Prop
  | nil {rows s} : Passes context [] rows s rows s
  | cons {d ds rows s mid t out u} (first : d.execute context rows s = (.ok (some mid), t))
      (rest : Passes context ds mid t out u) : Passes context (d :: ds) rows s out u

/-- A directive raises, or hands on no rows. -/
def Directive.Stops (d : Directive) (context : Context) (rows : List Row) (s t : Session) : Prop :=
  (∃ f, d.execute context rows s = (.error f, t)) ∨ d.execute context rows s = (.ok none, t)

/-- A first directive stops the batch with an error. Those behind it do not run: the session stays as the
directive left it. -/
def Halts (context : Context) (ds : List Directive) (rows : List Row) (s : Session) (e : RecipeError)
    (u : Session) : Prop :=
  ∃ before d behind mid t, ds = before ++ d :: behind ∧ Passes context before rows s mid t ∧
    d.Stops context mid t u ∧ d.run context mid t = (.error e, u)

variable {context : Context} {rows out : List Row} {s t : Session} {e : RecipeError}

/-- A directive either hands on rows or stops the batch with an error. -/
theorem Directive.run_cases (d : Directive) (context : Context) (rows : List Row) (s : Session) :
    (∃ out t, d.execute context rows s = (.ok (some out), t) ∧ d.run context rows s = (.ok out, t)) ∨
      ∃ e t, d.Stops context rows s t ∧ d.run context rows s = (.error e, t) := by
  unfold Directive.run
  rcases h : d.execute context rows s with ⟨f | answer, t⟩
  · right
    cases f with
    | recipe e => exact ⟨_, t, .inl ⟨_, h⟩, rfl⟩
    | usage e => exact ⟨_, t, .inl ⟨_, h⟩, rfl⟩
    | fault f => exact ⟨_, t, .inl ⟨_, h⟩, rfl⟩
  · cases answer with
    | none => exact .inr ⟨_, t, .inr h, rfl⟩
    | some out => exact .inl ⟨out, t, rfl, rfl⟩

theorem Directive.run_ok_iff {d : Directive} :
    d.run context rows s = (.ok out, t) ↔ d.execute context rows s = (.ok (some out), t) := by
  rcases d.run_cases context rows s with ⟨mid, u, hx, hr⟩ | ⟨e, u, hs, hr⟩
  · rw [hx, hr]
    constructor <;> intro h <;> cases h <;> rfl
  · rw [hr]
    constructor
    · intro h
      cases h
    · rintro h
      rcases hs with ⟨f, hs⟩ | hs <;> rw [hs] at h <;> cases h

theorem Directive.stops_of_run_error {d : Directive} (h : d.run context rows s = (.error e, t)) :
    d.Stops context rows s t := by
  rcases d.run_cases context rows s with ⟨mid, u, hx, hr⟩ | ⟨e', u, hs, hr⟩
  · rw [hr] at h
    cases h
  · rw [hr] at h
    cases h
    exact hs

theorem runAll_nil : runAll context [] rows s = (.ok rows, s) := rfl

/-- One directive more in front of a chain. -/
theorem runAll_cons (d : Directive) (ds : List Directive) :
    runAll context (d :: ds) rows s =
      match d.run context rows s with
      | (.ok mid, t) => runAll context ds mid t
      | (.error e, t) => (.error e, t) := by
  change (d.run context rows >>= runAll context ds) s = _
  rcases h : d.run context rows s with ⟨_ | _, t⟩ <;>
    simp only [bind, ExceptT.bind, ExceptT.mk, StateT.bind, h] <;> rfl

theorem runAll_ok_iff {ds : List Directive} :
    runAll context ds rows s = (.ok out, t) ↔ Passes context ds rows s out t := by
  induction ds generalizing rows s with
  | nil =>
    rw [runAll_nil]
    constructor
    · intro h
      cases h
      exact .nil
    · intro h
      cases h
      rfl
  | cons d ds ih =>
    rw [runAll_cons]
    constructor
    · intro h
      rcases hd : d.run context rows s with ⟨_ | mid, u⟩
      · rw [hd] at h
        cases h
      · rw [hd] at h
        exact .cons (Directive.run_ok_iff.mp hd) (ih.mp h)
    · intro h
      cases h with
      | cons first rest =>
        rw [Directive.run_ok_iff.mpr first]
        exact ih.mpr rest

theorem halts_of_runAll_error {ds : List Directive} (h : runAll context ds rows s = (.error e, t)) :
    Halts context ds rows s e t := by
  induction ds generalizing rows s with
  | nil => cases h
  | cons d ds ih =>
    rw [runAll_cons] at h
    rcases hd : d.run context rows s with ⟨e' | mid, u⟩
    · rw [hd] at h
      cases h
      exact ⟨[], d, ds, rows, s, rfl, .nil, Directive.stops_of_run_error hd, hd⟩
    · rw [hd] at h
      obtain ⟨before, d', behind, mid', v, rfl, hp, hs, hr⟩ := ih h
      exact ⟨d :: before, d', behind, mid', v, rfl, .cons (Directive.run_ok_iff.mp hd) hp, hs, hr⟩

/-- A chain in two parts. -/
theorem passes_append_iff {ds es : List Directive} :
    Passes context (ds ++ es) rows s out t ↔
      ∃ mid u, Passes context ds rows s mid u ∧ Passes context es mid u out t := by
  induction ds generalizing rows s with
  | nil =>
    constructor
    · exact fun h => ⟨rows, s, .nil, h⟩
    · rintro ⟨mid, u, hd, he⟩
      cases hd
      exact he
  | cons d ds ih =>
    constructor
    · intro h
      cases h with
      | cons first rest =>
        obtain ⟨mid, u, hd, he⟩ := ih.mp rest
        exact ⟨mid, u, .cons first hd, he⟩
    · rintro ⟨mid, u, hd, he⟩
      cases hd with
      | cons first rest => exact .cons first (ih.mpr ⟨mid, u, rest, he⟩)

/-- Behind directives that hand on rows a chain goes on with these rows. -/
theorem Passes.runAll_append {ds : List Directive} (h : Passes context ds rows s out t) (es : List Directive) :
    runAll context (ds ++ es) rows s = runAll context es out t := by
  induction h with
  | nil => rfl
  | cons first _ ih =>
    rw [List.cons_append, runAll_cons, Directive.run_ok_iff.mpr first]
    exact ih

end RowRecipe
