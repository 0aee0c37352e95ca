import Mathlib.Data.List.Induction
import RowRecipe.Directive.Columns
import RowRecipe.Proofs.Pipeline.Chain

/-!
# The life of a pipeline

The host asks a pipeline to run batches and to close, in any order. Only a ready pipeline accepts a batch:
a finished, failed or closed one refuses it and stays as it is. What an accepted batch starts from, which
directives it runs and in which phase it leaves the pipeline is said in terms of `Passes` and `Halts`.
-/

namespace RowRecipe

namespace Context

theorem marksLast_eq_endsStream (properties : Mapping Value) :
    marksLast properties = Pipeline.endsStream properties := by
  unfold marksLast Pipeline.endsStream
  rcases properties.get? lastProperty with _ | v
  · decide +kernel
  · cases v with
    | null => decide +kernel
    | _ => rfl

end Context

namespace Pipeline

/-- What the host asks of a pipeline. A batch is run with its failure raised or handed back as a value. -/
inductive Request
  | execute (rows : List Row) (isLast : Bool)
  | run (rows : List Row) (isLast : Bool)
  | close

/-- What the host gets. -/
inductive Reply
  | rows (rows : List Row)
  | raised (e : RecipeError)
  | outcome (r : Except RecipeError (List Row))
  | closed

namespace Request

/-- The batch of a request, and whether the request marks it as the last one. -/
def batch? : Request → Option (List Row × Bool)
  | execute rows isLast | run rows isLast => some (rows, isLast)
  | close => none

/-- How the result of a batch is handed to the host. -/
def reply : Request → Except RecipeError (List Row) → Reply
  | run .., r => .outcome r
  | _, .ok rows => .rows rows
  | _, .error e => .raised e

end Request

variable (p : Pipeline)

/-- Answers one request. -/
def answer (r : Request) : Reply × Pipeline :=
  match r.batch? with
  | some (rows, isLast) => (r.reply (p.execute rows isLast).1, (p.execute rows isLast).2)
  | none => (.closed, p.close)

/-- The pipeline after some requests. -/
def after (rs : List Request) : Pipeline :=
  rs.foldl (fun p r => (p.answer r).2) p

@[simp] theorem after_nil : p.after [] = p := rfl

theorem after_concat (rs : List Request) (r : Request) :
    p.after (rs ++ [r]) = ((p.after rs).answer r).2 := by
  simp [after, List.foldl_append]

/-- The context of the next batch. -/
def nextContext (isLast : Bool) : Context :=
  { p.context with properties := p.batchProperties isLast }

/-- What the next batch starts from: the entries of the pipeline as they are, and none of the batch. -/
def nextSession : Session :=
  ⟨⟨p.session.store.pipeline, []⟩, p.session.journal⟩

/-- The phase after a batch that went through. -/
def nextPhase (isLast : Bool) : Phase :=
  if p.context.environment ≠ .testing ∧ (p.nextContext isLast).isLast = true then .finished else .ready

variable {p} {rows : List Row} {isLast : Bool}

theorem execute_not_ready (h : p.phase ≠ .ready) : p.execute rows isLast = (.error p.notReady, p) := by
  rw [execute, if_pos h]
  rfl

theorem nextPhase_eq :
    (if endsStream (p.nextContext isLast).properties && p.context.environment != .testing then
      Phase.finished else .ready) = p.nextPhase isLast := by
  have hl : (p.nextContext isLast).isLast =
      (p.context.environment == .testing || endsStream (p.nextContext isLast).properties) := by
    rw [Context.isLast, Context.marksLast_eq_endsStream]
    rfl
  unfold nextPhase
  rw [hl]
  cases p.context.environment <;>
    cases endsStream (p.nextContext isLast).properties <;> rfl

/-- A ready pipeline runs the batch through all its directives. -/
theorem execute_ready (h : p.phase = .ready) :
    p.execute rows isLast =
      match runAll (p.nextContext isLast) p.directives rows p.nextSession with
      | (.error e, session) =>
        (.error e, { p with context := p.nextContext isLast, session, phase := .failed })
      | (.ok rows, session) =>
        (.ok rows, { p with context := p.nextContext isLast, session, batches := p.batches + 1
                            phase := p.nextPhase isLast }) := by
  rw [execute, if_neg (fun hn => hn h)]
  have hs : ({ p.session with store := p.session.store.reset .batch } : Session) = p.nextSession := rfl
  have hc : ({ p.context with properties := p.batchProperties isLast } : Context) =
    p.nextContext isLast := rfl
  simp only [hs, hc]
  rcases runAll (p.nextContext isLast) p.directives rows p.nextSession with ⟨_ | out, session⟩
  · rfl
  · simp only [← nextPhase_eq]
    rfl

/-- An accepted batch that goes through. -/
theorem execute_ok (h : p.phase = .ready) {out : List Row} {s : Session}
    (hp : Passes (p.nextContext isLast) p.directives rows p.nextSession out s) :
    p.execute rows isLast =
      (.ok out, { p with context := p.nextContext isLast, session := s, batches := p.batches + 1
                         phase := p.nextPhase isLast }) := by
  rw [execute_ready h, runAll_ok_iff.mpr hp]

/-- An accepted batch goes through or is stopped. -/
theorem execute_ready_cases (h : p.phase = .ready) (rows : List Row) (isLast : Bool) :
    (∃ out s, Passes (p.nextContext isLast) p.directives rows p.nextSession out s ∧
      p.execute rows isLast =
        (.ok out, { p with context := p.nextContext isLast, session := s, batches := p.batches + 1
                           phase := p.nextPhase isLast })) ∨
    ∃ e s, Halts (p.nextContext isLast) p.directives rows p.nextSession e s ∧
      p.execute rows isLast =
        (.error e, { p with context := p.nextContext isLast, session := s, phase := .failed }) := by
  rcases hr : runAll (p.nextContext isLast) p.directives rows p.nextSession with ⟨e | out, s⟩
  · refine .inr ⟨e, s, halts_of_runAll_error hr, ?_⟩
    rw [execute_ready h, hr]
  · exact .inl ⟨out, s, runAll_ok_iff.mp hr, execute_ok h (runAll_ok_iff.mp hr)⟩

theorem dismiss_journal (ds : List Directive) (j : Journal) :
    (dismiss ds j).2 = ds.foldl (fun j d => (d.destroy j).2) j := by
  induction ds generalizing j with
  | nil => rfl
  | cons d ds ih => exact ih (d.destroy j).2

/-- What no request changes. -/
structure SameHost (p q : Pipeline) : Prop where
  directives : q.directives = p.directives
  properties : q.properties = p.properties
  environment : q.context.environment = p.context.environment
  name : q.context.name = p.context.name

theorem SameHost.refl (p : Pipeline) : SameHost p p := ⟨rfl, rfl, rfl, rfl⟩

theorem SameHost.trans {p q r : Pipeline} (h : SameHost p q) (k : SameHost q r) : SameHost p r :=
  ⟨k.1.trans h.1, k.2.trans h.2, k.3.trans h.3, k.4.trans h.4⟩

theorem sameHost_execute : SameHost p (p.execute rows isLast).2 := by
  by_cases h : p.phase = .ready
  · rcases execute_ready_cases h rows isLast with ⟨out, s, -, hx⟩ | ⟨e, s, -, hx⟩ <;>
      rw [hx] <;> exact ⟨rfl, rfl, rfl, rfl⟩
  · rw [execute_not_ready h]
    exact .refl p

theorem sameHost_answer (r : Request) : SameHost p (p.answer r).2 := by
  unfold answer
  split
  · exact sameHost_execute
  · unfold close
    split <;> exact ⟨rfl, rfl, rfl, rfl⟩

theorem sameHost_after (rs : List Request) : SameHost p (p.after rs) := by
  induction rs using List.reverseRecOn with
  | nil => exact .refl p
  | append_singleton rs r ih =>
    rw [after_concat]
    exact ih.trans (sameHost_answer r)

/-- A pipeline that is not ready never becomes ready again. -/
theorem not_ready_answer (h : p.phase ≠ .ready) (r : Request) : (p.answer r).2.phase ≠ .ready := by
  unfold answer
  split
  · rw [execute_not_ready h]
    exact h
  · unfold close
    split
    · exact h
    · exact fun hc => Phase.noConfusion hc

/-- A request after which the pipeline is ready was a batch that a ready pipeline let through. -/
theorem ready_answer {r : Request} (h : (p.answer r).2.phase = .ready) :
    p.phase = .ready ∧ ∃ rows isLast out, r.batch? = some (rows, isLast) ∧
      Passes (p.nextContext isLast) p.directives rows p.nextSession out (p.answer r).2.session ∧
      (p.answer r).2.batches = p.batches + 1 := by
  have hp : p.phase = .ready := by
    by_contra hn
    exact not_ready_answer hn r h
  refine ⟨hp, ?_⟩
  unfold answer at h ⊢
  split at h
  · next rows isLast hb =>
    rcases execute_ready_cases hp rows isLast with ⟨out, s, hpass, hx⟩ | ⟨e, s, -, hx⟩
    · refine ⟨rows, isLast, out, hb, ?_⟩
      simp only [hx]
      exact ⟨hpass, trivial⟩
    · rw [hx] at h
      cases h
  · unfold close at h
    split at h
    · next hc =>
      rw [hp] at hc
      cases hc
    · cases h

/-- Where the session of a ready pipeline comes from: nothing has happened yet, or the latest request was
a batch that went through and left it. -/
def LeftByLatest (p₀ : Pipeline) (rs : List Request) : Prop :=
  (rs = [] ∧ (p₀.after rs).session = ⟨.empty, []⟩) ∨
    ∃ rs' r rows isLast out, rs = rs' ++ [r] ∧ r.batch? = some (rows, isLast) ∧
      (p₀.after rs').phase = .ready ∧
      Passes ((p₀.after rs').nextContext isLast) (p₀.after rs').directives rows
        (p₀.after rs').nextSession out (p₀.after rs).session

/-- How a pipeline that has reached some state answers the next request. -/
structure Answers (p : Pipeline) : Prop where
  /-- A pipeline that is not ready refuses every batch and stays as it is. -/
  refuses : p.phase ≠ .ready → ∀ (r : Request) (rows : List Row) (isLast : Bool),
    r.batch? = some (rows, isLast) → p.answer r = (r.reply (.error p.notReady), p)
  /-- A ready pipeline runs the batch. If no directive stops it, the pipeline counts it, and it is finished
  if the context marks the batch as the last one outside the testing environment. Else it has failed. -/
  runs : p.phase = .ready → ∀ (r : Request) (rows : List Row) (isLast : Bool),
    r.batch? = some (rows, isLast) →
      (∃ out s, Passes (p.nextContext isLast) p.directives rows p.nextSession out s ∧
        p.answer r = (r.reply (.ok out),
          { p with context := p.nextContext isLast, session := s, batches := p.batches + 1
                   phase := if p.context.environment ≠ .testing ∧ (p.nextContext isLast).isLast = true
                     then .finished else .ready })) ∨
      ∃ e s, Halts (p.nextContext isLast) p.directives rows p.nextSession e s ∧
        p.answer r = (r.reply (.error e),
          { p with context := p.nextContext isLast, session := s, phase := .failed })
  /-- Closing destroys every directive once, in order, whatever each destruction does, and empties the
  store. -/
  closes : p.phase ≠ .closed → p.answer .close = (.closed,
    { p with session := ⟨.empty, p.directives.foldl (fun j d => (d.destroy j).2) p.session.journal⟩
             phase := .closed })
  /-- Closing again changes nothing. -/
  closed : p.phase = .closed → p.answer .close = (.closed, p)

theorem answers (p : Pipeline) : p.Answers where
  refuses h r rows isLast hb := by
    rw [answer, hb]
    simp only [execute_not_ready h]
  runs h r rows isLast hb := by
    rcases execute_ready_cases h rows isLast with ⟨out, s, hp, hx⟩ | ⟨e, s, hp, hx⟩
    · refine .inl ⟨out, s, hp, ?_⟩
      rw [answer, hb]
      simp only [hx, nextPhase]
    · refine .inr ⟨e, s, hp, ?_⟩
      rw [answer, hb]
      simp only [hx]
  closes h := by
    rw [answer, Request.batch?]
    simp only [close, if_neg h, dismiss_journal]
  closed h := by
    rw [answer, Request.batch?]
    simp only [close, if_pos h]

theorem leftByLatest {p₀ : Pipeline} (hs : p₀.session = ⟨.empty, []⟩) (rs : List Request)
    (h : (p₀.after rs).phase = .ready) : LeftByLatest p₀ rs := by
  induction rs using List.reverseRecOn with
  | nil => exact .inl ⟨rfl, hs⟩
  | append_singleton rs r _ =>
    rw [after_concat] at h
    obtain ⟨hready, rows, isLast, out, hb, hp, -⟩ := ready_answer h
    refine .inr ⟨rs, r, rows, isLast, out, rfl, hb, hready, ?_⟩
    rw [after_concat]
    exact hp

/-- As long as a pipeline is ready, every request so far was a batch that it counted. -/
theorem batches_of_ready {p₀ : Pipeline} (hb : p₀.batches = 0) (rs : List Request)
    (h : (p₀.after rs).phase = .ready) : (p₀.after rs).batches = rs.length := by
  induction rs using List.reverseRecOn with
  | nil => exact hb
  | append_singleton rs r ih =>
    rw [after_concat] at h ⊢
    obtain ⟨hready, _, _, _, _, _, hcount⟩ := ready_answer h
    rw [hcount, ih hready, List.length_append, List.length_singleton]

theorem ofRecipe_fresh {r : CompiledRecipe} {environment : Environment} {properties : Mapping Value}
    {name : String} {p₀ : Pipeline} (h : ofRecipe r environment properties name = .ok p₀) :
    p₀ = { directives := r.directives, properties, context := ⟨environment, properties, name⟩
           session := ⟨.empty, []⟩, phase := .ready, batches := 0 } := by
  unfold ofRecipe at h
  split at h
  · cases h
    rfl
  · cases h

/-- After any requests a pipeline still has the directives, environment and properties it was made with. If
it is ready, its session is what the latest batch left and it has counted every request; and whatever its
phase, the next request is answered as `Answers` says. -/
theorem answers_after_requests {r : CompiledRecipe} {environment : Environment}
    {properties : Mapping Value} {name : String} {p₀ : Pipeline}
    (h : ofRecipe r environment properties name = .ok p₀) (rs : List Request) :
    (p₀.after rs).directives = r.directives ∧ (p₀.after rs).properties = properties ∧
      (p₀.after rs).context.environment = environment ∧ (p₀.after rs).context.name = name ∧
      ((p₀.after rs).phase = .ready → LeftByLatest p₀ rs ∧ (p₀.after rs).batches = rs.length) ∧
      (p₀.after rs).Answers := by
  obtain rfl := ofRecipe_fresh h
  obtain ⟨hd, hp, he, hn⟩ := sameHost_after (p := _) rs
  exact ⟨hd, hp, he, hn, fun hr => ⟨leftByLatest rfl rs hr, batches_of_ready rfl rs hr⟩, answers _⟩

/-- A recipe that renames the column `size` to `bytes`. -/
def sizeRenamed : CompiledRecipe :=
  { steps := [.directive (Rename.toDirective ⟨"size", "bytes"⟩)], recipe := ⟨[], none, []⟩ }

/-- A batch that fails, and one that comes too late. -/
def unlucky : List Request :=
  [.execute [[("size", .int 1), ("bytes", .int 1)]] false, .run [[("size", .int 2)]] true]

theorem answers_after_unlucky : ∃ p₀, ofRecipe sizeRenamed .service [] "main" = .ok p₀ ∧
    (p₀.after unlucky).phase = .failed ∧ (p₀.after unlucky).Answers :=
  ⟨_, rfl, rfl, (answers_after_requests (r := sizeRenamed) rfl unlucky).2.2.2.2.2⟩

end Pipeline

end RowRecipe
