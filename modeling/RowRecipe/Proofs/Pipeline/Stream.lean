import RowRecipe.Proofs.Directive.Rowwise
import RowRecipe.Proofs.Pipeline.Arrivals

/-!
# Streams of batches

A stream is run batch by batch, each once and in order, and only the last batch is flagged as the last one. For a
recipe of row steps the cuts between the batches do not matter: the stream goes through exactly if all its rows do as
one last batch, and it yields the same rows.
-/

namespace RowRecipe.Pipeline

open RowStep (feed)

/-- The batches of a stream with their flags. Without batches there is one empty last batch. -/
def flagged (batches : List (List Row)) : List (List Row × Bool) :=
  batches.dropLast.map (·, false) ++ [(batches.getLast?.getD [], true)]

/-- A pipeline runs batches with their flags, one after the other, and lets each of them through. -/
inductive Streams : Pipeline → List (List Row × Bool) → List (List Row) → Pipeline → Prop
  | nil {p} : Streams p [] [] p
  | cons {p q r rows isLast out calls outs} (first : p.execute rows isLast = (.ok out, q))
      (rest : Streams q calls outs r) : Streams p ((rows, isLast) :: calls) (out :: outs) r

variable {p q : Pipeline} {steps : List RowStep} {out : List Row} {batches : List (List Row)}

theorem streams_singleton_iff {rows : List Row} {isLast : Bool} {outs : List (List Row)} :
    Streams p [(rows, isLast)] outs q ↔ ∃ out, outs = [out] ∧ p.execute rows isLast = (.ok out, q) := by
  constructor
  · intro h
    cases h with
    | cons first rest =>
      cases rest
      exact ⟨_, rfl, first⟩
  · rintro ⟨out, rfl, h⟩
    exact .cons h .nil

theorem process_cons_cons (p : Pipeline) (rows next : List Row) (more : List (List Row)) :
    p.process (rows :: next :: more) =
      match p.execute rows false with
      | (.error e, q) => (.error e, q)
      | (.ok out, q) => ((q.process (next :: more)).1.map (out ++ ·), (q.process (next :: more)).2) := by
  rw [process]
  · rfl
  · exact fun h => by cases h

/-- A stream is processed exactly by running its batches with their flags. -/
theorem process_eq_ok_iff {p q : Pipeline} {out : List Row} {batches : List (List Row)} :
    p.process batches = (.ok out, q) ↔ ∃ outs, Streams p (flagged batches) outs q ∧ out = outs.flatten := by
  match batches with
  | [] =>
    change p.execute [] true = _ ↔ ∃ outs, Streams p [([], true)] outs q ∧ _
    simp [streams_singleton_iff]
  | [rows] =>
    change p.execute rows true = _ ↔ ∃ outs, Streams p [(rows, true)] outs q ∧ _
    simp [streams_singleton_iff]
  | rows :: next :: more =>
    have hflagged : flagged (rows :: next :: more) = (rows, false) :: flagged (next :: more) := rfl
    rw [process_cons_cons, hflagged]
    constructor
    · intro h
      rcases hx : p.execute rows false with ⟨e | first, p'⟩
      · rw [hx] at h
        cases h
      · rw [hx] at h
        dsimp only at h
        rcases hrest : p'.process (next :: more) with ⟨e | rest, q'⟩
        · rw [hrest] at h
          cases h
        · rw [hrest] at h
          cases h
          obtain ⟨outs, hstreams, rfl⟩ := process_eq_ok_iff.mp hrest
          exact ⟨first :: outs, .cons hx hstreams, rfl⟩
    · rintro ⟨outs, h, rfl⟩
      cases h with
      | cons first rest =>
        rw [first]
        dsimp only
        rw [process_eq_ok_iff.mpr ⟨_, rest, rfl⟩]
        rfl

/-- Every batch of a stream that went through was counted. -/
theorem Streams.batches_eq {calls : List (List Row × Bool)} {outs : List (List Row)} (h : Streams p calls outs q) :
    q.batches = p.batches + calls.length := by
  induction h with
  | nil => rfl
  | @cons p q r rows isLast out calls outs first _ ih =>
    have hcount : q.batches = p.batches + 1 := by
      obtain ⟨hready, hpass⟩ := passes_of_execute_ok first
      rw [execute_ok hready hpass] at first
      exact (congrArg (·.2.batches) first).symm
    rw [ih, hcount, List.length_cons]
    omega

/-! ## Streams of row steps -/

/-- A ready pipeline of row steps lets a batch through exactly if the steps do. -/
theorem execute_rowSteps_iff (hready : p.phase = .ready) (hd : p.directives = steps.map RowStep.toDirective)
    {rows : List Row} {isLast : Bool} :
    p.execute rows isLast = (.ok out, q) ↔ feed steps rows = .ok out ∧
      q = { p with context := p.nextContext isLast, session := p.nextSession, batches := p.batches + 1
                   phase := p.nextPhase isLast } := by
  constructor
  · intro h
    obtain ⟨-, hpass⟩ := passes_of_execute_ok h
    have hpass' := hpass
    rw [hd, RowStep.passes_iff] at hpass'
    obtain ⟨hfeed, hsession⟩ := hpass'
    rw [hsession] at hpass
    rw [execute_ok hready hpass] at h
    cases h
    exact ⟨hfeed, rfl⟩
  · rintro ⟨hfeed, rfl⟩
    refine execute_ok hready ?_
    rw [hd, RowStep.passes_iff]
    exact ⟨hfeed, rfl⟩

/-- A batch that is not flagged leaves a pipeline ready, unless the properties of the host mark every batch. -/
theorem nextPhase_false (h : Context.marksLast p.properties = false) : p.nextPhase false = .ready := by
  have hlast : (p.nextContext false).isLast = (p.context.environment == .testing || false) :=
    congrArg (p.context.environment == .testing || ·) h
  unfold nextPhase
  rw [hlast]
  cases p.context.environment <;> rfl

/-- Batches with a last one behind them go through exactly if the steps let each of them through. -/
theorem streams_rowSteps_iff (hready : p.phase = .ready) (hd : p.directives = steps.map RowStep.toDirective)
    (hlast : Context.marksLast p.properties = false) (batches : List (List Row)) (last : List Row)
    (outs : List (List Row)) :
    (∃ q, Streams p (batches.map (·, false) ++ [(last, true)]) outs q) ↔
      List.Forall₂ (fun rows out => feed steps rows = .ok out) (batches ++ [last]) outs := by
  induction batches generalizing p outs with
  | nil =>
    simp only [List.map_nil, List.nil_append, streams_singleton_iff, execute_rowSteps_iff hready hd]
    constructor
    · rintro ⟨q, out, rfl, hfeed, -⟩
      exact .cons hfeed .nil
    · intro h
      cases h with
      | cons hfeed hnil =>
        cases hnil
        exact ⟨_, _, rfl, hfeed, rfl⟩
  | cons rows batches ih =>
    have hnext (outs : List (List Row)) := ih
      (p := { p with context := p.nextContext false, session := p.nextSession, batches := p.batches + 1
                     phase := p.nextPhase false }) (nextPhase_false hlast) hd hlast outs
    constructor
    · rintro ⟨q, h⟩
      cases h with
      | cons first rest =>
        obtain ⟨hfeed, rfl⟩ := (execute_rowSteps_iff hready hd).mp first
        exact .cons hfeed ((hnext _).mp ⟨q, rest⟩)
    · intro h
      cases h with
      | cons hfeed hrest =>
        obtain ⟨q, rest⟩ := (hnext _).mpr hrest
        exact ⟨q, .cons ((execute_rowSteps_iff hready hd).mpr ⟨hfeed, rfl⟩) rest⟩

theorem flatten_flagged (batches : List (List Row)) :
    (batches.dropLast ++ [batches.getLast?.getD []]).flatten = batches.flatten := by
  rcases List.eq_nil_or_concat batches with rfl | ⟨init, last, rfl⟩
  · rfl
  · simp

/-- Processing a stream of row steps makes of all its rows what the steps make of them. -/
theorem process_rowSteps_iff (hready : p.phase = .ready) (hd : p.directives = steps.map RowStep.toDirective)
    (hlast : Context.marksLast p.properties = false) :
    (∃ q, p.process batches = (.ok out, q)) ↔ feed steps batches.flatten = .ok out := by
  rw [← flatten_flagged, RowStep.feed_flatten_iff]
  simp only [process_eq_ok_iff, ← streams_rowSteps_iff hready hd hlast]
  constructor
  · rintro ⟨q, outs, h, rfl⟩
    exact ⟨outs, ⟨q, h⟩, rfl⟩
  · rintro ⟨outs, ⟨q, h⟩, rfl⟩
    exact ⟨q, outs, h, rfl⟩

/-- For a recipe of row steps, on a pipeline before its first batch whose properties do not mark every batch as the
last one, it does not matter how rows are cut into batches: a stream goes through exactly if all its rows do as one
last batch, and then it yields the same rows. Each of its batches was run once, in order, and the last one alone was
flagged. -/
theorem process_iff_execute {r : CompiledRecipe} {environment : Environment} {properties : Mapping Value}
    {name : String} {p₀ : Pipeline} (h : ofRecipe r environment properties name = .ok p₀)
    (hd : r.directives = steps.map RowStep.toDirective) (hlast : Context.marksLast properties = false)
    (batches : List (List Row)) :
    ((∃ out q, p₀.process batches = (.ok out, q)) ↔
      ∃ out q, p₀.execute batches.flatten true = (.ok out, q)) ∧
    ∀ out q out' q', p₀.process batches = (.ok out, q) → p₀.execute batches.flatten true = (.ok out', q') →
      out = out' ∧ q.batches = (flagged batches).length ∧
        ∃ outs, Streams p₀ (flagged batches) outs q ∧ out = outs.flatten := by
  have hfresh := ofRecipe_fresh h
  have hready : p₀.phase = .ready := by rw [hfresh]
  have hdirectives : p₀.directives = steps.map RowStep.toDirective := by rw [hfresh, ← hd]
  have hproperties : Context.marksLast p₀.properties = false := by rwa [hfresh]
  have hprocess (out : List Row) :
      (∃ q, p₀.process batches = (.ok out, q)) ↔ feed steps batches.flatten = .ok out :=
    process_rowSteps_iff hready hdirectives hproperties
  have hexecute (out : List Row) :
      (∃ q, p₀.execute batches.flatten true = (.ok out, q)) ↔ feed steps batches.flatten = .ok out := by
    simp [execute_rowSteps_iff hready hdirectives]
  refine ⟨by simp only [hprocess, hexecute], fun out q out' q' hp hx => ?_⟩
  have hout := (hprocess out).mp ⟨q, hp⟩
  rw [(hexecute out').mp ⟨q', hx⟩] at hout
  cases hout
  obtain ⟨outs, hstreams, rfl⟩ := process_eq_ok_iff.mp hp
  have hcount := hstreams.batches_eq
  rw [hfresh, Nat.zero_add] at hcount
  exact ⟨rfl, hcount, outs, hstreams, rfl⟩

/-- Two rows in three batches, of which one is empty. -/
def twoSizes : List (List Row) :=
  [[[("size", .int 1)]], [], [[("size", .int 2)]]]

theorem process_twoSizes : ∃ p₀ q q', ofRecipe sizeRenamed .service [] "main" = .ok p₀ ∧
    p₀.process twoSizes = (.ok [[("bytes", .int 1)], [("bytes", .int 2)]], q) ∧
    p₀.execute twoSizes.flatten true = (.ok [[("bytes", .int 1)], [("bytes", .int 2)]], q') ∧ q.batches = 3 := by
  have hstart : ofRecipe sizeRenamed .service [] "main" = .ok _ := rfl
  have hsteps : sizeRenamed.directives = [RowStep.rename ⟨"size", "bytes"⟩].map RowStep.toDirective := rfl
  have hsame := process_iff_execute hstart hsteps rfl twoSizes
  obtain ⟨-, hcount, -⟩ := hsame.2 _ _ _ _ rfl rfl
  exact ⟨_, _, _, rfl, rfl, rfl, hcount⟩

end RowRecipe.Pipeline
