import RowRecipe.Proofs.Aggregate.Summary
import RowRecipe.Proofs.Directive.RowStep
import RowRecipe.Proofs.Pipeline.Lifecycle
import RowRecipe.Proofs.Unit.Display

/-!
# Runs of an aggregation

A pipeline with an aggregation at its end, behind row steps, over any requests. The invariant of a run is that
the store holds the totals of all rows that the aggregation has received; the rows of a batch that failed are
of no consequence, because no batch is accepted after it. A boundary needs totals that can be written.
-/

namespace RowRecipe

open RowStep (feed)

/-- The rows of the batches among requests, batch after batch. -/
def Pipeline.Request.batches (rs : List Pipeline.Request) : List (List Row) :=
  rs.filterMap fun r => r.batch?.map (·.1)

namespace Aggregate

open Pipeline (Request)

/-- A pipeline before its first batch, of row steps with the aggregation behind them. -/
def Starts (a : Aggregate) (steps : List RowStep) (p : Pipeline) : Prop :=
  ∃ r environment properties name, Pipeline.ofRecipe r environment properties name = .ok p ∧
    r.directives = steps.map RowStep.toDirective ++ [a.toDirective]

/-- All rows that steps make of batches. -/
def received (steps : List RowStep) (batches : List (List Row)) : Except ExecutionError (List Row) :=
  (batches.mapM (feed steps)).map List.flatten

/-- Some run hands the aggregation the rows `all`, in some batches, and ends with a boundary batch that
yields `out`. -/
def EndsWith (a : Aggregate) (all out : List Row) : Prop :=
  ∃ steps p₀ rs rows isLast q, Starts a steps p₀ ∧
    received steps (Request.batches rs ++ [rows]) = .ok all ∧
    ((p₀.after rs).nextContext isLast).isLast = true ∧
    (p₀.after rs).execute rows isLast = (.ok out, q)

/-- The error of a batch on which the aggregation fails. -/
def failure (f : Fault) : RecipeError :=
  .execution { fault := .failed directiveName f.describe, directive := some directiveName, row := none
               column := none, value := .null }

/-- How an aggregation at the end of a pipeline sums up. -/
structure SumsUp (a : Aggregate) : Prop where
  /-- After a batch that went through, the store holds the totals of all rows received so far. The batch is
  handed on as it is, or replaced by the row of these totals if it is a boundary. -/
  through : ∀ {steps p₀ rs rows isLast out q}, Starts a steps p₀ →
    (p₀.after rs).execute rows isLast = (.ok out, q) →
    ∃ before given, received steps (Request.batches rs) = .ok before ∧ feed steps rows = .ok given ∧
      (∀ row ∈ given, a.Reads row) ∧ Holds q.session.store (a.totals (before ++ given)) ∧
      if ((p₀.after rs).nextContext isLast).isLast = true then
        (a.totals (before ++ given)).Writable ∧ ∃ row, a.row? (a.totals (before ++ given)) = some row ∧ out = [row]
      else out = given
  /-- No conversion of totals fails, as long as decimals have room for them. -/
  converts : ∀ {t : Totals}, t.Convertible → (a.row? t).isSome
  /-- A batch goes through if its rows can be read, decimals have room for what they amount to and, on a boundary,
  the totals can be written. -/
  goes : ∀ {steps p₀ rs before given} rows isLast, Starts a steps p₀ → (p₀.after rs).phase = .ready →
    received steps (Request.batches rs) = .ok before → feed steps rows = .ok given →
    (∀ row ∈ given, a.Reads row) → (a.totals given).Convertible →
    (((p₀.after rs).nextContext isLast).isLast = true → (a.totals (before ++ given)).Writable) →
    ∃ out q, (p₀.after rs).execute rows isLast = (.ok out, q)
  /-- A boundary fails if the totals can be converted but not written. -/
  refused : ∀ {steps p₀ rs before given} rows isLast, Starts a steps p₀ → (p₀.after rs).phase = .ready →
    received steps (Request.batches rs) = .ok before → feed steps rows = .ok given →
    (∀ row ∈ given, a.Reads row) → ((p₀.after rs).nextContext isLast).isLast = true →
    (a.totals (before ++ given)).Convertible → ¬(a.totals (before ++ given)).Writable →
    ∃ q, (p₀.after rs).execute rows isLast = (.error (failure .longInteger), q)
  /-- After a batch that failed no batch goes through. -/
  ends : ∀ {steps p₀ rs rows isLast e q}, Starts a steps p₀ →
    (p₀.after rs).execute rows isLast = (.error e, q) →
    ∀ rs' rows' isLast', ((q.after rs').execute rows' isLast').1 = .error (q.after rs').notReady
  /-- The order of the rows and the cuts between batches do not matter. -/
  regroups : ∀ {all all' out out'}, EndsWith a all out → EndsWith a all' out' → all.Perm all' →
    ∃ row, out = [row] ∧ out' = [row]

variable {a : Aggregate} {steps : List RowStep} {p₀ : Pipeline} {rs : List Request}

theorem received_concat {batches : List (List Row)} {rows before given : List Row}
    (h : received steps batches = .ok before) (hg : feed steps rows = .ok given) :
    received steps (batches ++ [rows]) = .ok (before ++ given) := by
  unfold received at h ⊢
  rw [List.mapM_append]
  cases hm : batches.mapM (feed steps) with
  | error e =>
    rw [hm] at h
    cases h
  | ok parts =>
    rw [hm] at h
    cases h
    simp [hg, bind, Except.bind, pure, Except.pure, Except.map]

/-- A batch goes through the chain if the steps hand on rows that go through the aggregation. -/
theorem passes_iff {context : Context} {rows out : List Row} {s t : Session} :
    Passes context (steps.map RowStep.toDirective ++ [a.toDirective]) rows s out t ↔
      ∃ given, feed steps rows = .ok given ∧ a.execute context given s = (.ok (some out), t) := by
  rw [passes_append_iff]
  constructor
  · rintro ⟨given, u, hsteps, hlast⟩
    obtain ⟨hfeed, rfl⟩ := (RowStep.passes_iff steps).mp hsteps
    cases hlast with
    | cons first rest =>
      cases rest
      exact ⟨given, hfeed, first⟩
  · rintro ⟨given, hfeed, hexec⟩
    exact ⟨given, s, (RowStep.passes_iff steps).mpr ⟨hfeed, rfl⟩, .cons hexec .nil⟩

theorem directives_after (h : Starts a steps p₀) (rs : List Request) :
    (p₀.after rs).directives = steps.map RowStep.toDirective ++ [a.toDirective] := by
  obtain ⟨r, environment, properties, name, hp, hd⟩ := h
  rw [(Pipeline.sameHost_after rs).directives, Pipeline.ofRecipe_fresh hp, hd]

/-- The rows of the next batch are added to those that were received before. -/
theorem holds_nextSession {p : Pipeline} {t : Totals} (h : Holds p.session.store t) :
    Holds p.nextSession.store t :=
  ⟨h.size, h.time, h.rows⟩

/-- The invariant: a pipeline that is ready holds the totals of all rows received so far. -/
theorem holds_after (hu : a.KnowsUnits) (hne : a.sizeTarget ≠ a.timeTarget) (h : Starts a steps p₀)
    (rs : List Request) (hready : (p₀.after rs).phase = .ready) :
    ∃ before, received steps (Request.batches rs) = .ok before ∧
      Holds (p₀.after rs).session.store (a.totals before) := by
  induction rs using List.reverseRecOn with
  | nil =>
    obtain ⟨r, environment, properties, name, hp, -⟩ := h
    refine ⟨[], rfl, ?_⟩
    rw [Pipeline.after_nil, Pipeline.ofRecipe_fresh hp]
    exact a.holds_empty
  | append_singleton rs r ih =>
    rw [Pipeline.after_concat] at hready ⊢
    obtain ⟨hprev, rows, isLast, out, hbatch, hpass, -⟩ := Pipeline.ready_answer hready
    obtain ⟨before, hbefore, hholds⟩ := ih hprev
    rw [directives_after h, passes_iff] at hpass
    obtain ⟨given, hfeed, hexec⟩ := hpass
    obtain ⟨-, hnext, -⟩ := execute_ok hu hne (holds_nextSession hholds) hexec
    refine ⟨before ++ given, ?_, ?_⟩
    · have hrs : Request.batches (rs ++ [r]) = Request.batches rs ++ [rows] := by
        simp [Request.batches, hbatch]
      rw [hrs]
      exact received_concat hbefore hfeed
    · rw [totals_append]
      exact hnext

/-- A pipeline that lets a batch through was ready. -/
theorem ready_of_execute_ok {p q : Pipeline} {rows out : List Row} {isLast : Bool}
    (h : p.execute rows isLast = (.ok out, q)) : p.phase = .ready := by
  by_contra hn
  rw [Pipeline.execute_not_ready hn] at h
  cases h

theorem through (hu : a.KnowsUnits) (hne : a.sizeTarget ≠ a.timeTarget) (h : Starts a steps p₀)
    {rows out : List Row} {isLast : Bool} {q : Pipeline}
    (hok : (p₀.after rs).execute rows isLast = (.ok out, q)) :
    ∃ before given, received steps (Request.batches rs) = .ok before ∧ feed steps rows = .ok given ∧
      (∀ row ∈ given, a.Reads row) ∧ Holds q.session.store (a.totals (before ++ given)) ∧
      if ((p₀.after rs).nextContext isLast).isLast = true then
        (a.totals (before ++ given)).Writable ∧ ∃ row, a.row? (a.totals (before ++ given)) = some row ∧ out = [row]
      else out = given := by
  have hready := ready_of_execute_ok hok
  obtain ⟨before, hbefore, hholds⟩ := holds_after hu hne h rs hready
  rcases Pipeline.execute_ready_cases hready rows isLast with ⟨out', s, hpass, hx⟩ | ⟨e, s, -, hx⟩
  · rw [hx] at hok
    cases hok
    rw [directives_after h, passes_iff] at hpass
    obtain ⟨given, hfeed, hexec⟩ := hpass
    obtain ⟨hreads, hnext, hout⟩ := execute_ok hu hne (holds_nextSession hholds) hexec
    rw [← totals_append] at hnext hout
    exact ⟨before, given, hbefore, hfeed, hreads, hnext, hout⟩
  · rw [hx] at hok
    cases hok

/-- The next batch starts from the totals of what was received. -/
theorem holds_next (hu : a.KnowsUnits) (hne : a.sizeTarget ≠ a.timeTarget) (h : Starts a steps p₀)
    (hready : (p₀.after rs).phase = .ready) {before : List Row}
    (hbefore : received steps (Request.batches rs) = .ok before) :
    Holds (p₀.after rs).nextSession.store (a.totals before) := by
  obtain ⟨before', hbefore', hholds⟩ := holds_after hu hne h rs hready
  rw [hbefore] at hbefore'
  cases hbefore'
  exact holds_nextSession hholds

theorem goes (hu : a.KnowsUnits) (hne : a.sizeTarget ≠ a.timeTarget) (h : Starts a steps p₀)
    (hready : (p₀.after rs).phase = .ready) {before given : List Row} (rows : List Row) (isLast : Bool)
    (hbefore : received steps (Request.batches rs) = .ok before) (hfeed : feed steps rows = .ok given)
    (hreads : ∀ row ∈ given, a.Reads row)
    (hw : ((p₀.after rs).nextContext isLast).isLast = true → (a.totals (before ++ given)).Writable) :
    ∃ out q, (p₀.after rs).execute rows isLast = (.ok out, q) := by
  rw [totals_append] at hw
  obtain ⟨out, s, hexec⟩ := execute_goes ((p₀.after rs).nextContext isLast) hu hne
    (holds_next hu hne h hready hbefore) hreads hw
  refine ⟨out, _, Pipeline.execute_ok hready (s := s) ?_⟩
  rw [directives_after h, passes_iff]
  exact ⟨given, hfeed, hexec⟩

/-- A boundary fails if the totals have no summary. -/
theorem fails (hu : a.KnowsUnits) (hne : a.sizeTarget ≠ a.timeTarget) (h : Starts a steps p₀)
    (hready : (p₀.after rs).phase = .ready) {before given : List Row} (rows : List Row) (isLast : Bool)
    (hbefore : received steps (Request.batches rs) = .ok before) (hfeed : feed steps rows = .ok given)
    (hreads : ∀ row ∈ given, a.Reads row) (hlast : ((p₀.after rs).nextContext isLast).isLast = true) {f : Fault}
    (hf : ∀ s, Holds s (a.totals (before ++ given)) → a.summary s = .error (.fault f)) :
    ∃ q, (p₀.after rs).execute rows isLast = (.error (failure f), q) := by
  rw [totals_append] at hf
  obtain ⟨s, hexec⟩ := execute_fails hlast (holds_next hu hne h hready hbefore) hreads hf
  have hrun : a.toDirective.run ((p₀.after rs).nextContext isLast) given (p₀.after rs).nextSession =
      (.error (failure f), s) := by
    have hexec' : a.toDirective.execute _ given (p₀.after rs).nextSession = _ := hexec
    rw [Directive.run, hexec']
    rfl
  have hsteps : Passes ((p₀.after rs).nextContext isLast) (steps.map RowStep.toDirective) rows
      (p₀.after rs).nextSession given _ := (RowStep.passes_iff steps).mpr ⟨hfeed, rfl⟩
  rw [Pipeline.execute_ready hready, directives_after h, hsteps.runAll_append, runAll_cons, hrun]
  exact ⟨_, rfl⟩

/-- No request makes a pipeline ready that is not. -/
theorem not_ready_after {p : Pipeline} (h : p.phase ≠ .ready) (rs : List Request) :
    (p.after rs).phase ≠ .ready := by
  induction rs using List.reverseRecOn with
  | nil => exact h
  | append_singleton rs r ih =>
    rw [Pipeline.after_concat]
    exact Pipeline.not_ready_answer ih r

/-- A pipeline that has refused a batch, or failed on it, is not ready. -/
theorem not_ready_of_execute_error {p q : Pipeline} {rows : List Row} {isLast : Bool} {e : RecipeError}
    (h : p.execute rows isLast = (.error e, q)) : q.phase ≠ .ready := by
  by_cases hready : p.phase = .ready
  · rcases Pipeline.execute_ready_cases hready rows isLast with ⟨out, s, -, hx⟩ | ⟨e', s, -, hx⟩
    · rw [hx] at h
      cases h
    · rw [hx] at h
      cases h
      exact fun hc => Phase.noConfusion hc
  · rw [Pipeline.execute_not_ready hready] at h
    cases h
    exact hready

/-- What a boundary batch yields is the row of the totals of all rows that were received. -/
theorem row_of_endsWith (hu : a.KnowsUnits) (hne : a.sizeTarget ≠ a.timeTarget) {all out : List Row}
    (h : EndsWith a all out) : ∃ row, a.row? (a.totals all) = some row ∧ out = [row] := by
  obtain ⟨steps, p₀, rs, rows, isLast, q, hstart, hall, hlast, hok⟩ := h
  obtain ⟨before, given, hbefore, hfeed, -, -, hout⟩ := through hu hne hstart hok
  rw [received_concat hbefore hfeed] at hall
  cases hall
  rw [if_pos hlast] at hout
  exact hout.2

/-- An aggregation that was made from arguments with two different targets sums up. -/
theorem sumsUp_of_ofArguments {args : Arguments} (ha : ofArguments args = .ok a)
    (hne : a.sizeTarget ≠ a.timeTarget) : a.SumsUp := by
  have hu := knowsUnits_of_ofArguments ha
  refine ⟨fun hs hok => through hu hne hs hok, row?_isSome hu, ?_, ?_, ?_, ?_⟩
  · intro steps p₀ rs before given rows isLast hs hready hbefore hfeed hreads _ hw
    exact goes hu hne hs hready rows isLast hbefore hfeed hreads hw
  · intro steps p₀ rs before given rows isLast hs hready hbefore hfeed hreads hlast hc hw
    refine fails hu hne hs hready rows isLast hbefore hfeed hreads hlast fun s hs => ?_
    obtain ⟨row, -, hsum⟩ := summary_of_convertible hu hne hs hc
    rwa [if_neg hw] at hsum
  · intro steps p₀ rs rows isLast e q _ herror rs' rows' isLast'
    have := not_ready_after (not_ready_of_execute_error herror) rs'
    rw [Pipeline.execute_not_ready this]
  · intro all all' out out' h h' hperm
    obtain ⟨row, hrow, rfl⟩ := row_of_endsWith hu hne h
    obtain ⟨row', hrow', rfl⟩ := row_of_endsWith hu hne h'
    rw [totals_perm a hperm, hrow'] at hrow
    cases hrow
    exact ⟨_, rfl, rfl⟩

/-- The arguments of `aggregate-stats :size :time total_size total_time 'MB' 's' 'AVERAGE'`. -/
def transferArguments : Arguments :=
  { directive := directiveName
    tokens := [("size-column", .of (.columnName "size")), ("time-column", .of (.columnName "time")),
      ("size-target", .of (.text "total_size")), ("time-target", .of (.text "total_time")),
      ("size-unit", .of (.text "MB")), ("time-unit", .of (.text "s")),
      ("aggregation-type", .of (.text "AVERAGE"))] }

def transfers : Aggregate := ⟨"size", "time", "total_size", "total_time", "MB", "s", .average⟩

/-- A recipe that drops a column and sums up. -/
def transferRecipe : CompiledRecipe :=
  { steps := [.directive (RowStep.drop ⟨["note"]⟩).toDirective, .directive transfers.toDirective]
    recipe := ⟨[], none, []⟩ }

/-- A row with a size of whole megabytes and without a time. -/
def transfer (n : Nat) : Row :=
  [("note", .text "-"), ("size", .quantity ⟨.size, "", .ofNat n 0, "MB", n * pow10 6⟩)]

/-- The average of three sizes in two batches is six megabytes. -/
theorem transfers_sumsUp : transfers.SumsUp ∧
    ∃ p₀, Starts transfers [.drop ⟨["note"]⟩] p₀ ∧
      ∃ q, (p₀.after [.run [transfer 10, transfer 5] false]).execute [transfer 3] true =
        (.ok [[("total_size", .double (.finite false (6 * pow2 50) (-50))),
          ("total_time", .double (.finite false 0 (-1074)))]], q) := by
  have hread : ofArguments transferArguments = .ok transfers := rfl
  have hsums : transfers.SumsUp := sumsUp_of_ofArguments hread (by decide)
  have hstart : Starts transfers [.drop ⟨["note"]⟩] _ :=
    ⟨transferRecipe, .service, [], "main", rfl, rfl⟩
  refine ⟨hsums, _, hstart, ?_⟩
  obtain ⟨out, q, hok⟩ : ∃ out q, (Pipeline.after _ [.run [transfer 10, transfer 5] false]).execute [transfer 3] true =
      (.ok out, q) := hsums.goes [transfer 3] true hstart rfl rfl rfl (List.forall_mem_singleton.mpr ⟨rfl, rfl⟩)
    (by decide +kernel : Totals.Writable ⟨3 * pow10 6, 0, 1⟩).convertible
    fun _ => (by decide +kernel : Totals.Writable ⟨18 * pow10 6, 0, 3⟩)
  obtain ⟨before, given, hbefore, hgiven, -, -, hout⟩ := hsums.through hstart hok
  cases hbefore
  cases hgiven
  obtain ⟨-, row, hrow, rfl⟩ :
      _ ∧ ∃ row, transfers.row? ⟨18 * pow10 6, 0, 3⟩ = some row ∧ out = [row] := hout
  have hsize : Quantity.inUnit? .size (18 * pow10 6) "MB" 3 = some (.finite false (6 * pow2 50) (-50)) := by
    decide +kernel
  have htime : Quantity.inUnit? .time 0 "s" 3 = some (.finite false 0 (-1074)) := by decide +kernel
  have hrow' : transfers.row? ⟨18 * pow10 6, 0, 3⟩ = some
      [("total_size", .double (.finite false (6 * pow2 50) (-50))),
        ("total_time", .double (.finite false 0 (-1074)))] := by
    simp [row?, transfers, divisor, hsize, htime]
  rw [hrow] at hrow'
  cases hrow'
  exact ⟨q, hok⟩

/-! ## Totals that are too large -/

/-- The arguments of `aggregate-stats :size :time total_size total_time 'bit'`. -/
def volumeArguments : Arguments :=
  { directive := directiveName
    tokens := [("size-column", .of (.columnName "size")), ("time-column", .of (.columnName "time")),
      ("size-target", .of (.text "total_size")), ("time-target", .of (.text "total_time")),
      ("size-unit", .of (.text "bit")), ("time-unit", .of (.text "s")),
      ("aggregation-type", .of (.text "TOTAL"))] }

def volume : Aggregate := ⟨"size", "time", "total_size", "total_time", "bit", "s", .total⟩

def volumeRecipe : CompiledRecipe :=
  { steps := [.directive volume.toDirective], recipe := ⟨[], none, []⟩ }

/-- A row with a text of `n` bytes and without a time. -/
def sized (n : Nat) : Row :=
  [("size", .text (toString n ++ "B"))]

theorem totals_sized {n : Nat} (h : Decimal.HasDigits Quantity.precision n) :
    volume.Reads (sized n) ∧ volume.totals [sized n] = ⟨n, 0, 1⟩ := by
  obtain ⟨q, hq, hcanonical⟩ := Quantity.exists_ofText_whole .size h
  have hsize : amountOf? .size "size" (sized n) = some n := by
    change (Quantity.ofText .size (toString n ++ "B")).toOption.map (·.canonical) = _
    rw [show "B" = UnitKind.size.canonicalUnit from rfl, hq]
    exact congrArg some hcanonical
  have htime : amountOf? .time "time" (sized n) = some 0 := rfl
  refine ⟨⟨Option.isSome_of_eq_some hsize, Option.isSome_of_eq_some htime⟩, ?_⟩
  simp [totals, sumOf, volume, hsize, htime]

/-- Two and 4300 zeros leave decimals room, but they are too long to be written. -/
theorem long_but_convertible :
    ¬Totals.Writable ⟨2 * pow10 4300, 0, 1⟩ ∧ Totals.Convertible ⟨2 * pow10 4300, 0, 1⟩ := by
  have hpos := pow10_pos 4300
  constructor
  · intro hw
    have hlong := lt_digitCount (show pow10 4300 ≤ 2 * pow10 4300 by omega)
    exact absurd hw.1 (not_le.mpr hlong)
  · have hsize : 2 * pow10 4300 < pow10 4301 := by
      rw [pow10_succ 4300]
      omega
    have htime : 0 < pow10 1 := pow10_pos 1
    exact ⟨Quantity.convertible_of_lt (by decide) (by decide) hsize,
      Quantity.convertible_of_lt (by decide) (by decide) htime⟩

/-- Two and 999999 zeros in bytes are too large in bits. -/
theorem converted_bits_out_of_range (divisor : Value) :
    converted .size (.int (2 * pow10 999999 : Nat)) "bit" divisor = .error (.fault (.ofNumber .outOfRange)) := by
  refine converted_out_of_range (f := ⟨125, -3⟩) rfl ?_ divisor
  have hpos := Decimal.ten_zpow_pos Decimal.greatestPlace
  have hpow : ((pow10 999999 : Nat) : ℚ) = 10 ^ Decimal.greatestPlace := Decimal.cast_pow10 999999
  rw [Nat.cast_mul, hpow, zpow_add_one₀ (by norm_num)]
  generalize (10 : ℚ) ^ Decimal.greatestPlace = x at hpos
  unfold UnitFactor.value Decimal.magnitude
  norm_num
  linarith

/-- A boundary batch of one row, whose total can be converted but not written. It fails, and so does one whose
total cannot be converted either. -/
theorem volume_refused : ofArguments volumeArguments = .ok volume ∧
    ∃ p₀, Starts volume [] p₀ ∧ (p₀.nextContext true).isLast = true ∧
      (∃ row, volume.row? (volume.totals [sized (2 * pow10 4300)]) = some row) ∧
      (∃ q, p₀.execute [sized (2 * pow10 4300)] true = (.error (failure .longInteger), q)) ∧
      volume.row? (volume.totals [sized (2 * pow10 999999)]) = none ∧
      ∃ q, p₀.execute [sized (2 * pow10 999999)] true = (.error (failure (.ofNumber .outOfRange)), q) := by
  have hu : volume.KnowsUnits := ⟨rfl, rfl⟩
  have hne : volume.sizeTarget ≠ volume.timeTarget := by decide
  obtain ⟨p₀, hp⟩ : ∃ p₀, Pipeline.ofRecipe volumeRecipe .testing [] "main" = .ok p₀ := ⟨_, rfl⟩
  have hstart : Starts volume [] p₀ := ⟨volumeRecipe, .testing, [], "main", hp, rfl⟩
  obtain ⟨hready, hlast⟩ : (p₀.after []).phase = .ready ∧ ((p₀.after []).nextContext true).isLast = true := by
    cases hp
    exact ⟨rfl, rfl⟩
  have hbefore : received [] (Request.batches []) = .ok [] := rfl
  have hfails {row : Row} {f : Fault} (hrow : volume.Reads row)
      (hf : ∀ s, Holds s (volume.totals [row]) → volume.summary s = .error (.fault f)) :
      ∃ q, p₀.execute [row] true = (.error (failure f), q) :=
    fails hu hne hstart hready [row] true hbefore rfl (List.forall_mem_singleton.mpr hrow) hlast hf
  obtain ⟨hreads, htotals⟩ := totals_sized (Decimal.hasDigits_mul_pow10 (c := 2) (by decide) 4300)
  obtain ⟨hreads', htotals'⟩ := totals_sized (Decimal.hasDigits_mul_pow10 (c := 2) (by decide) 999999)
  obtain ⟨hlong, hconvertible⟩ := long_but_convertible
  have hunit : volume.sizeUnit = "bit" := rfl
  refine ⟨rfl, p₀, hstart, hlast, ?_, hfails hreads fun s hs => ?_, ?_, hfails hreads' fun s hs => ?_⟩
  · rw [htotals]
    exact Option.isSome_iff_exists.mp (row?_isSome hu hconvertible)
  · rw [htotals] at hs
    obtain ⟨row, -, hsum⟩ := summary_of_convertible hu hne hs hconvertible
    rwa [if_neg hlong] at hsum
  · rw [htotals', row?, ← converted_eq hu.1, hunit, converted_bits_out_of_range]
    rfl
  · rw [htotals'] at hs
    rw [summary_eq hne hs, hunit, converted_bits_out_of_range]
    rfl

end Aggregate

end RowRecipe
