import RowRecipe.Proofs.Aggregate.Sharing
import RowRecipe.Proofs.Directive.Rowwise

/-!
# Aggregations behind parsing

No text is read as quantities of two kinds, because no unit is in both tables. So parsing a cell changes what it
amounts to in no kind, and parsing refuses only cells that an aggregation of the column refuses. An aggregation
does not notice such steps in front of it: with or without them its pipeline takes the same batches, and yields
the same rows at boundaries. The invariant of the two runs is that both stores hold the same totals.
-/

namespace RowRecipe

open Aggregate (amountOf?)

/-! ## Cells -/

namespace UnitKind

/-- No unit is in both tables. -/
theorem eq_of_factor?_isSome {k k' : UnitKind} {unit : String} (h : (k.factor? unit).isSome)
    (h' : (k'.factor? unit).isSome) : k = k' := by
  have hsizes : ∀ e ∈ sizeUnits, time.factor? e.1 = none := by decide +kernel
  have hapart (hsize : (size.factor? unit).isSome) (htime : (time.factor? unit).isSome) : False := by
    obtain ⟨f, hf⟩ := Option.isSome_iff_exists.mp hsize
    rw [hsizes _ (Mapping.mem_of_get? hf)] at htime
    cases htime
  cases k <;> cases k'
  · rfl
  · exact (hapart h h').elim
  · exact (hapart h' h).elim
  · rfl

end UnitKind

namespace Quantity

/-- The unit of a quantity is what the text shows in any kind, and it is in the table of the kind. -/
theorem unit_of_ofText {kind : UnitKind} {text : String} {q : Quantity} (h : ofText kind text = .ok q) :
    q.kind = kind ∧ (kind.factor? q.unit).isSome ∧
      (splitLiteral? (Text.trimmed text).toList).map (fun s => String.ofList s.2.2) = some q.unit := by
  unfold ofText at h
  dsimp only at h
  split at h
  · cases h
  · split at h
    · cases h
    · next hsplit =>
      split at h
      · cases h
      · split at h
        · cases h
        · next f hf =>
          cases h
          rw [hsplit, hf]
          exact ⟨rfl, rfl, rfl⟩

/-- No text is read as quantities of two kinds. -/
theorem kind_eq_of_ofText {k k' : UnitKind} {text : String} {q q' : Quantity} (h : ofText k text = .ok q)
    (h' : ofText k' text = .ok q') : k = k' := by
  obtain ⟨-, hunit, hsplit⟩ := unit_of_ofText h
  obtain ⟨-, hunit', hsplit'⟩ := unit_of_ofText h'
  rw [hsplit] at hsplit'
  rw [Option.some.inj hsplit'] at hunit
  exact UnitKind.eq_of_factor?_isSome hunit hunit'

/-- A text amounts in every kind to what the quantity amounts to that is read from it. -/
theorem canonical?_of_ofText {kind : UnitKind} {text : String} {q : Quantity} (h : ofText kind text = .ok q)
    (k : UnitKind) : (Value.quantity q).canonical? k = (Value.text text).canonical? k := by
  have hkind := (unit_of_ofText h).1
  unfold Value.canonical?
  dsimp only
  by_cases hk : q.kind = k
  · rw [if_pos hk, ← hk, hkind, h]
    rfl
  · rw [if_neg hk]
    cases h' : ofText k text with
    | error e => rfl
    | ok q' => exact absurd (hkind.trans (kind_eq_of_ofText h h')) hk

end Quantity

namespace ParseUnit

variable (p : ParseUnit) {row row' : Row}

/-- Parsing keeps a row, or replaces a text by the quantity it shows, or refuses a cell that amounts to nothing. -/
theorem row?_cases (row : Row) :
    (p.row? row = some row ∧ (amountOf? p.kind p.column row).isSome) ∨
      (∃ s q, Mapping.get? row p.column = some (.text s) ∧ Quantity.ofText p.kind s = .ok q ∧
        p.row? row = some (Mapping.put row p.column (.quantity q))) ∨
      (p.row? row = none ∧ amountOf? p.kind p.column row = none) := by
  unfold row? ParseUnit.row amountOf? Value.canonical?
  cases hcell : Mapping.get? row p.column with
  | none => exact .inl ⟨rfl, rfl⟩
  | some v =>
    cases v with
    | null => exact .inl ⟨rfl, rfl⟩
    | text s =>
      right
      dsimp only [Option.getD_some]
      cases hread : Quantity.ofText p.kind s with
      | ok q => exact .inl ⟨s, q, rfl, hread, rfl⟩
      | error e => exact .inr ⟨rfl, rfl⟩
    | quantity q =>
      dsimp only [Option.getD_some]
      split
      · exact .inl ⟨rfl, rfl⟩
      · exact .inr (.inr ⟨rfl, rfl⟩)
    | _ => exact .inr (.inr ⟨rfl, rfl⟩)

/-- Parsing lets a row through exactly if its cell can be summed up. -/
theorem row?_isSome_iff : (p.row? row).isSome ↔ (amountOf? p.kind p.column row).isSome := by
  rcases p.row?_cases row with ⟨hrow, hamount⟩ | ⟨s, q, hcell, hread, hrow⟩ | ⟨hrow, hamount⟩
  · rw [hrow, hamount]
    rfl
  · rw [hrow, amountOf?, hcell, Option.getD_some, Value.canonical?, hread]
    rfl
  · rw [hrow, hamount]
    exact Iff.rfl

/-- Parsing changes no amount of any kind, in no column. -/
theorem amountOf?_of_row? (h : p.row? row = some row') (kind : UnitKind) (column : String) :
    amountOf? kind column row' = amountOf? kind column row := by
  rcases p.row?_cases row with ⟨hrow, -⟩ | ⟨s, q, hcell, hread, hrow⟩ | ⟨hrow, -⟩
  · rw [h] at hrow
    cases hrow
    rfl
  · rw [h] at hrow
    cases hrow
    rw [amountOf?, amountOf?, Mapping.get?_put]
    split
    · next hcolumn =>
      rw [hcolumn, hcell]
      exact Quantity.canonical?_of_ofText hread kind
    · rfl
  · rw [h] at hrow
    cases hrow

end ParseUnit

namespace Aggregate

open Pipeline (Request)
open RowStep (feed)

variable {a : Aggregate} {steps : List RowStep}

/-! ## Steps that an aggregation does not notice -/

/-- Steps let every row through that an aggregation can read, and do not change what it reads. -/
structure Overlooks (a : Aggregate) (steps : List RowStep) : Prop where
  through : ∀ row, a.Reads row → (RowStep.through steps row).isSome
  size : ∀ row row', RowStep.through steps row = some row' →
    amountOf? .size a.sizeColumn row' = amountOf? .size a.sizeColumn row
  time : ∀ row row', RowStep.through steps row = some row' →
    amountOf? .time a.timeColumn row' = amountOf? .time a.timeColumn row

theorem overlooks_nil (a : Aggregate) : a.Overlooks [] where
  through _ _ := rfl
  size _ _ h := by cases h; rfl
  time _ _ h := by cases h; rfl

/-- The two columns are parsed, each as what the aggregation reads in it. -/
def parsing (a : Aggregate) : List RowStep :=
  [.parse ⟨.size, a.sizeColumn⟩, .parse ⟨.time, a.timeColumn⟩]

theorem through_parsing_iff {row row' : Row} : RowStep.through a.parsing row = some row' ↔
    ∃ mid, ParseUnit.row? ⟨.size, a.sizeColumn⟩ row = some mid ∧
      ParseUnit.row? ⟨.time, a.timeColumn⟩ mid = some row' := by
  simp [RowStep.through, parsing, RowStep.row?, Option.bind_eq_some_iff]

theorem overlooks_parsing (a : Aggregate) : a.Overlooks a.parsing := by
  have hamounts (row row' : Row) (h : RowStep.through a.parsing row = some row') (kind : UnitKind) (column : String) :
      amountOf? kind column row' = amountOf? kind column row := by
    obtain ⟨mid, hsize, htime⟩ := through_parsing_iff.mp h
    rw [ParseUnit.amountOf?_of_row? _ htime, ParseUnit.amountOf?_of_row? _ hsize]
  refine ⟨fun row hrow => ?_, fun _ _ h => hamounts _ _ h _ _, fun _ _ h => hamounts _ _ h _ _⟩
  have hsize := (ParseUnit.row?_isSome_iff ⟨.size, a.sizeColumn⟩).mpr hrow.1
  obtain ⟨mid, hmid⟩ := Option.isSome_iff_exists.mp hsize
  have htime : (amountOf? .time a.timeColumn mid).isSome := by
    rw [ParseUnit.amountOf?_of_row? _ hmid]
    exact hrow.2
  obtain ⟨row', hrow'⟩ := Option.isSome_iff_exists.mp ((ParseUnit.row?_isSome_iff ⟨.time, _⟩).mpr htime)
  exact Option.isSome_iff_exists.mpr ⟨row', through_parsing_iff.mpr ⟨mid, hmid, hrow'⟩⟩

variable {context : Context} {rows given out : List Row} {s u : Session} {t : Totals}

/-- The aggregation reads behind the steps what it reads in front of them. -/
theorem Overlooks.of_feed (h : a.Overlooks steps) (hfeed : feed steps rows = .ok given) :
    ((∀ row ∈ given, a.Reads row) ↔ ∀ row ∈ rows, a.Reads row) ∧ a.totals given = a.totals rows := by
  have hrows := (RowStep.feed_iff_forall₂ steps).mp hfeed
  clear hfeed
  induction hrows with
  | nil => exact ⟨Iff.rfl, rfl⟩
  | @cons row row' rows given hrow _ ih =>
    have hsize := h.size row row' hrow
    have htime := h.time row row' hrow
    constructor
    · rw [List.forall_mem_cons, List.forall_mem_cons, ih.1, Reads, hsize, htime]
      rfl
    · have hone : a.totals [row'] = a.totals [row] := by
        simp [totals, sumOf, hsize, htime]
      rw [← List.singleton_append, totals_append, hone, ih.2, ← totals_append]
      rfl

/-- What a batch that went through has left in the store, and yielded if it was a boundary. -/
theorem Overlooks.of_passes (h : a.Overlooks steps) (hs : Holds s.store t)
    (hp : Passes context (steps.map RowStep.toDirective ++ [a.toDirective]) rows s out u) :
    (∀ row ∈ rows, a.Reads row) ∧ Holds u.store (t + a.totals rows) ∧
      (context.isLast = true → ∃ row, a.summary (t + a.totals rows).store = .ok row ∧ out = [row]) := by
  obtain ⟨given, hfeed, hx⟩ := passes_iff.mp hp
  obtain ⟨hreads, htotals⟩ := h.of_feed hfeed
  obtain ⟨hgiven, hu⟩ := holds_of_execute hs hx
  rw [htotals] at hu
  refine ⟨hreads.mp hgiven, hu, fun hlast => ?_⟩
  have hrow := (accumulateFrom_of_execute hx).2
  rw [if_pos hlast] at hrow
  obtain ⟨row, hrow, hout⟩ := hrow
  exact ⟨row, (summary_eq_of_holds (holds_store _) hu).trans hrow, hout⟩

/-- A batch goes through if its rows can be read, and at a boundary there is a row of the totals. -/
theorem Overlooks.exists_passes (h : a.Overlooks steps) (context : Context) (hs : Holds s.store t)
    (hr : ∀ row ∈ rows, a.Reads row)
    (hlast : context.isLast = true → ∃ row, a.summary (t + a.totals rows).store = .ok row) :
    ∃ out u, Passes context (steps.map RowStep.toDirective ++ [a.toDirective]) rows s out u := by
  obtain ⟨given, hfeed⟩ := RowStep.exists_feed fun row hrow => h.through row (hr row hrow)
  obtain ⟨hreads, htotals⟩ := h.of_feed hfeed
  obtain ⟨u, hrun, hu⟩ := accumulateFrom_ok 0 hs (hreads.mpr hr)
  have hx : a.execute context given s = _ := execute_of_accumulateFrom hrun
  split at hx
  · next hb =>
    obtain ⟨row, hrow⟩ := hlast hb
    rw [← htotals, summary_eq_of_holds (holds_store _) hu] at hrow
    rw [hrow] at hx
    exact ⟨[row], u, passes_iff.mpr ⟨given, hfeed, hx⟩⟩
  · exact ⟨given, u, passes_iff.mpr ⟨given, hfeed, hx⟩⟩

/-! ## Two runs -/

/-- A pipeline of steps that an aggregation does not notice, and the aggregation behind them. -/
def Trails (a : Aggregate) (p : Pipeline) : Prop :=
  ∃ steps, a.Overlooks steps ∧ p.directives = steps.map RowStep.toDirective ++ [a.toDirective]

/-- Two pipelines that differ in the steps in front of an aggregation are at the same point of their runs. -/
structure InStep (a : Aggregate) (p q : Pipeline) : Prop where
  left : a.Trails p
  right : a.Trails q
  phase : p.phase = q.phase
  properties : p.properties = q.properties
  context : p.context = q.context
  totals : p.phase = .ready → ∃ t, Holds p.session.store t ∧ Holds q.session.store t

namespace InStep

variable {p q p' : Pipeline} {isLast : Bool}

theorem symm (h : a.InStep p q) : a.InStep q p where
  left := h.right
  right := h.left
  phase := h.phase.symm
  properties := h.properties.symm
  context := h.context.symm
  totals hready := (h.totals (h.phase.trans hready)).imp fun _ => And.symm

theorem nextContext_eq (h : a.InStep p q) (isLast : Bool) : p.nextContext isLast = q.nextContext isLast := by
  rw [Pipeline.nextContext, Pipeline.nextContext, Pipeline.batchProperties, Pipeline.batchProperties, h.context,
    h.properties]

theorem nextPhase_eq (h : a.InStep p q) (isLast : Bool) : p.nextPhase isLast = q.nextPhase isLast := by
  rw [Pipeline.nextPhase, Pipeline.nextPhase, h.nextContext_eq, h.context]

/-- A batch that goes through one pipeline goes through the other. -/
theorem execute_ok (h : a.InStep p q) (hx : p.execute rows isLast = (.ok out, p')) :
    ∃ out' q', q.execute rows isLast = (.ok out', q') ∧ a.InStep p' q' ∧
      ((p.nextContext isLast).isLast = true → out = out') := by
  obtain ⟨hready, hpass⟩ := Pipeline.passes_of_execute_ok hx
  generalize p'.session = v at hpass
  rw [Pipeline.execute_ok hready hpass] at hx
  cases hx
  obtain ⟨t, hs, hs'⟩ := h.totals hready
  obtain ⟨steps, hsteps, hd⟩ := h.left
  obtain ⟨steps', hsteps', hd'⟩ := h.right
  rw [hd] at hpass
  obtain ⟨hreads, hnext, hout⟩ := hsteps.of_passes (holds_nextSession hs) hpass
  rw [h.nextContext_eq] at hout ⊢
  obtain ⟨out', u, hother⟩ := hsteps'.exists_passes (q.nextContext isLast) (holds_nextSession hs') hreads
    fun hlast => (hout hlast).imp fun _ => And.left
  obtain ⟨-, hnext', hout'⟩ := hsteps'.of_passes (holds_nextSession hs') hother
  rw [← hd'] at hother
  refine ⟨out', _, Pipeline.execute_ok (h.phase ▸ hready) hother, ?_, fun hlast => ?_⟩
  · exact ⟨h.left, h.right, h.nextPhase_eq isLast, h.properties, rfl, fun _ => ⟨_, hnext, hnext'⟩⟩
  · obtain ⟨row, hrow, rfl⟩ := hout hlast
    obtain ⟨row', hrow', rfl⟩ := hout' hlast
    rw [hrow] at hrow'
    cases hrow'
    rfl

/-- A batch that fails in one pipeline fails in the other. -/
theorem execute_error (h : a.InStep p q) {e : RecipeError} (hx : p.execute rows isLast = (.error e, p')) :
    ∃ e' q', q.execute rows isLast = (.error e', q') ∧ a.InStep p' q' := by
  by_cases hready : p.phase = .ready
  · rcases Pipeline.execute_ready_cases (h.phase ▸ hready) rows isLast with
      ⟨out', u, -, hother⟩ | ⟨e', u, -, hother⟩
    · obtain ⟨out, p'', hok, -⟩ := h.symm.execute_ok hother
      rw [hx] at hok
      cases hok
    · refine ⟨e', _, hother, ?_⟩
      rcases Pipeline.execute_ready_cases hready rows isLast with ⟨out, v, -, hx'⟩ | ⟨e'', v, -, hx'⟩
      · rw [hx] at hx'
        cases hx'
      · rw [hx] at hx'
        cases hx'
        exact ⟨h.left, h.right, rfl, h.properties, h.nextContext_eq isLast, fun hc => Phase.noConfusion hc⟩
  · rw [Pipeline.execute_not_ready hready] at hx
    cases hx
    exact ⟨_, q, Pipeline.execute_not_ready fun hc => hready (h.phase.trans hc), h⟩

/-- One batch keeps two pipelines in step. Both take it or none, and at a boundary they yield the same rows. -/
theorem execute (h : a.InStep p q) (rows : List Row) (isLast : Bool) :
    a.InStep (p.execute rows isLast).2 (q.execute rows isLast).2 ∧
      (p.execute rows isLast).1.isOk = (q.execute rows isLast).1.isOk ∧
      ((p.nextContext isLast).isLast = true →
        (p.execute rows isLast).1.toOption = (q.execute rows isLast).1.toOption) := by
  rcases hx : p.execute rows isLast with ⟨e | out, p'⟩
  · obtain ⟨e', q', hx', hnext⟩ := h.execute_error hx
    rw [hx']
    exact ⟨hnext, rfl, fun _ => rfl⟩
  · obtain ⟨out', q', hx', hnext, hout⟩ := h.execute_ok hx
    rw [hx']
    exact ⟨hnext, rfl, fun hlast => congrArg some (hout hlast)⟩

theorem close (h : a.InStep p q) : a.InStep p.close q.close := by
  unfold Pipeline.close
  by_cases hclosed : p.phase = .closed
  · rw [if_pos hclosed, if_pos (h.phase ▸ hclosed)]
    exact h
  · rw [if_neg hclosed, if_neg (h.phase ▸ hclosed)]
    exact ⟨h.left, h.right, rfl, h.properties, h.context, fun hc => Phase.noConfusion hc⟩

/-- The invariant of the two runs. -/
theorem after (h : a.InStep p q) (rs : List Request) : a.InStep (p.after rs) (q.after rs) := by
  induction rs using List.reverseRecOn with
  | nil => exact h
  | append_singleton rs r ih =>
    rw [Pipeline.after_concat, Pipeline.after_concat, Pipeline.answer, Pipeline.answer]
    cases r.batch? with
    | none => exact ih.close
    | some batch => exact (ih.execute batch.1 batch.2).1

end InStep

/-- It does not matter whether the columns of an aggregation are parsed in front of it. After any requests the two
pipelines are in the same phase, and they have the same boundaries; they take the same batches; and at a boundary
they yield the same rows. -/
theorem parsing_overlooked {r r' : CompiledRecipe} {environment : Environment} {properties : Mapping Value}
    {name : String} {p₀ q₀ : Pipeline}
    (hr : r.directives =
      [ParseUnit.toDirective ⟨.size, a.sizeColumn⟩, ParseUnit.toDirective ⟨.time, a.timeColumn⟩, a.toDirective])
    (hr' : r'.directives = [a.toDirective])
    (hp : Pipeline.ofRecipe r environment properties name = .ok p₀)
    (hq : Pipeline.ofRecipe r' environment properties name = .ok q₀) (rs : List Request) :
    (p₀.after rs).phase = (q₀.after rs).phase ∧ ∀ rows isLast,
      (p₀.after rs).nextContext isLast = (q₀.after rs).nextContext isLast ∧
      ((p₀.after rs).execute rows isLast).1.isOk = ((q₀.after rs).execute rows isLast).1.isOk ∧
      (((p₀.after rs).nextContext isLast).isLast = true →
        ((p₀.after rs).execute rows isLast).1.toOption = ((q₀.after rs).execute rows isLast).1.toOption) := by
  have hstart : a.InStep p₀ q₀ := by
    rw [Pipeline.ofRecipe_fresh hp, Pipeline.ofRecipe_fresh hq]
    exact ⟨⟨a.parsing, a.overlooks_parsing, hr⟩, ⟨[], a.overlooks_nil, hr'⟩, rfl, rfl, rfl,
      fun _ => ⟨_, a.holds_empty, a.holds_empty⟩⟩
  have hafter := hstart.after rs
  exact ⟨hafter.phase, fun rows isLast => ⟨hafter.nextContext_eq isLast, (hafter.execute rows isLast).2⟩⟩

/-- The columns of `incoming` are parsed before they are summed up. -/
def incomingParsed : List Link :=
  incoming.parsing.map Link.step ++ [.aggregate incoming]

/-- Two rows with their sizes in texts; the first has no time. -/
def writtenSizes : List Row :=
  [[("size", .text "1.5MB")], [("size", .text "500 KB"), ("time", .text "0s")]]

theorem parsing_overlooked_writtenSizes :
    Pipeline.ofRecipe (recipeOf incomingParsed) .service [] "main" = .ok (started incomingParsed) ∧
      Pipeline.ofRecipe (recipeOf [.aggregate incoming]) .service [] "main" = .ok (started [.aggregate incoming]) ∧
      (((started incomingParsed).after [.run writtenSizes false]).execute [exchange 3 0] true).1.toOption =
        some [sizeRow (.finite false (5 * pow2 50) (-50))] := by
  have hd : (recipeOf incomingParsed).directives =
      [ParseUnit.toDirective ⟨.size, "size"⟩, ParseUnit.toDirective ⟨.time, "time"⟩, incoming.toDirective] :=
    directives_recipeOf _
  have hd' : (recipeOf [.aggregate incoming]).directives = [incoming.toDirective] := directives_recipeOf _
  have hsame := (parsing_overlooked hd hd' (ofRecipe_recipeOf _) (ofRecipe_recipeOf _)
    [.run writtenSizes false]).2 [exchange 3 0] true
  have hplain : (((started [.aggregate incoming]).after [.run writtenSizes false]).execute [exchange 3 0] true).1 =
      .ok [sizeRow (.finite false (5 * pow2 50) (-50))] := eq_of_isSizeRow (by decide +kernel)
  refine ⟨ofRecipe_recipeOf _, ofRecipe_recipeOf _, ?_⟩
  rw [hsame.2.2 (by decide +kernel), hplain]
  rfl

end Aggregate

end RowRecipe
