import RowRecipe.Proofs.Aggregate.Totals
import RowRecipe.Proofs.Number.Quotient
import RowRecipe.Proofs.Unit.Literal

/-!
# The summary row

The row that an aggregation makes of totals, by the conversion of amounts to units. An aggregation that was
made from arguments has units that the tables know, so totals can be converted unless they have about a
million digits, for which decimals have no room. Long before that they are too long to be written, and then
there is no row either.
-/

namespace RowRecipe

namespace Totals

/-- Decimals have room for the amounts in every unit. -/
def Convertible (t : Totals) : Prop :=
  Quantity.Convertible t.size ∧ Quantity.Convertible t.time

/-- No number among the totals is too long to be written. -/
def Writable (t : Totals) : Prop :=
  digitCount t.size ≤ Value.greatestDigits ∧ digitCount t.time ≤ Value.greatestDigits ∧
    digitCount t.rows ≤ Value.greatestDigits

instance (t : Totals) : Decidable t.Writable := inferInstanceAs (Decidable (_ ∧ _))

theorem Writable.convertible {t : Totals} (h : t.Writable) : t.Convertible := by
  unfold Writable Value.greatestDigits at h
  unfold Convertible Quantity.Convertible
  omega

end Totals

/-- An amount in a unit, divided by `divisor`, as a double. -/
def Quantity.inUnit? (kind : UnitKind) (amount : Nat) (unit : String) (divisor : Nat) : Option Double :=
  match convertAmount kind (.ofNat amount 0) unit (.ofNat divisor 0) with
  | .ok d => (Double.ofDecimal d).toOption
  | .error _ => none

theorem Quantity.inUnit?_isSome {kind : UnitKind} {unit : String} (hu : (kind.factor? unit).isSome)
    {amount divisor : Nat} (ha : Convertible amount) (hd : 0 < divisor) :
    (inUnit? kind amount unit divisor).isSome := by
  obtain ⟨c, e, h⟩ := convertAmount_ok hu ha hd
  unfold inUnit?
  rw [h]
  rfl

namespace Aggregate

variable (a : Aggregate)

/-- What totals are divided by. -/
def divisor (t : Totals) : Nat :=
  if a.mode = .average ∧ 0 < t.rows then t.rows else 1

/-- The only row of a boundary batch. -/
def row? (t : Totals) : Option Row := do
  let size ← Quantity.inUnit? .size t.size a.sizeUnit (a.divisor t)
  let time ← Quantity.inUnit? .time t.time a.timeUnit (a.divisor t)
  return [(a.sizeTarget, .double size), (a.timeTarget, .double time)]

/-- The units are in the tables. -/
def KnowsUnits : Prop :=
  (UnitKind.size.factor? a.sizeUnit).isSome ∧ (UnitKind.time.factor? a.timeUnit).isSome

theorem factor?_isSome_of_resolvedUnit {kind : UnitKind} {option unit name : String}
    (h : resolvedUnit kind option unit = .ok name) : (kind.factor? name).isSome := by
  unfold resolvedUnit at h
  split at h
  · next name' hr =>
    cases h
    exact UnitKind.factor?_isSome_of_resolveUnit? hr
  · cases h

theorem knowsUnits_of_ofArguments {args : Arguments} {a : Aggregate} (h : ofArguments args = .ok a) :
    a.KnowsUnits := by
  unfold ofArguments at h
  cases hs : resolvedUnit .size "size-unit" (args.text "size-unit") with
  | error e =>
    rw [hs] at h
    cases h
  | ok sizeUnit =>
    cases ht : resolvedUnit .time "time-unit" (args.text "time-unit") with
    | error e =>
      rw [hs, ht] at h
      cases h
    | ok timeUnit =>
      rw [hs, ht] at h
      simp only [bind, Except.bind] at h
      split at h
      · cases h
      · cases h
        exact ⟨factor?_isSome_of_resolvedUnit hs, factor?_isSome_of_resolvedUnit ht⟩

variable {a}

theorem row?_isSome (hu : a.KnowsUnits) {t : Totals} (ht : t.Convertible) : (a.row? t).isSome := by
  have hd : 0 < a.divisor t := by
    unfold divisor
    split
    · next h => exact h.2
    · exact Nat.one_pos
  obtain ⟨size, hsize⟩ := Option.isSome_iff_exists.mp (Quantity.inUnit?_isSome hu.1 ht.1 hd)
  obtain ⟨time, htime⟩ := Option.isSome_iff_exists.mp (Quantity.inUnit?_isSome hu.2 ht.2 hd)
  simp [row?, hsize, htime]

/-! ## The summary of a store -/

theorem isPositive_int (n : Nat) : (Value.int n).isPositive = .ok (decide (0 < n)) := by
  have hnat : Decimal.ofInt n = .finite false n 0 := by simp [Decimal.ofInt]
  cases n with
  | zero => rfl
  | succ n =>
    have hsign : Decimal.sign false (n + 1) = 1 := by simp [Decimal.sign, Decimal.signed]
    have hzero : Decimal.sign false 0 = 0 := rfl
    simp only [Value.isPositive, Value.number?, hnat, Decimal.compareZero, Decimal.compare?, hsign, hzero]
    rfl

theorem converted_eq {kind : UnitKind} {unit : String} (hu : (kind.factor? unit).isSome)
    (amount divisor : Nat) :
    (converted kind (.int amount) unit (.int divisor)).toOption =
      Quantity.inUnit? kind amount unit divisor := by
  obtain ⟨f, hf⟩ := Option.isSome_iff_exists.mp hu
  have hnat (n : Nat) : Decimal.ofInt n = .ofNat n 0 := by simp [Decimal.ofInt, Decimal.ofNat]
  unfold converted Quantity.inUnit? Quantity.convertAmount
  simp only [hf, UnitFactor.convert, Value.toDecimal, hnat, pure, Except.pure, bind, Except.bind]
  cases Decimal.div Quantity.precision (.ofNat amount 0) f.toDecimal with
  | error e => rfl
  | ok inUnits =>
    simp only [Except.mapError]
    cases Decimal.div Quantity.precision inUnits (.ofNat divisor 0) with
    | error e => rfl
    | ok d =>
      dsimp only
      cases Double.ofDecimal d <;> rfl

/-- An amount that is too large for decimals in a unit has no conversion. -/
theorem converted_out_of_range {kind : UnitKind} {unit : String} {f : UnitFactor} (hf : kind.factor? unit = some f)
    {amount : Nat} (h : 10 ^ (Decimal.greatestPlace + 1) ≤ (amount : ℚ) / f.value) (divisor : Value) :
    converted kind (.int amount) unit divisor = .error (.fault (.ofNumber .outOfRange)) := by
  have hdiv : Decimal.div Quantity.precision (.ofInt amount) f.toDecimal = .error .outOfRange := by
    have hpos := (UnitKind.usable_of_factor? hf).1
    have hamount : Decimal.ofInt amount = .finite false amount 0 := by simp [Decimal.ofInt]
    rw [hamount]
    apply Decimal.div_out_of_range Quantity.precision_pos _ _ hpos
    simpa [Decimal.magnitude, UnitFactor.value] using h
  unfold converted
  simp only [hf, UnitFactor.convert, Value.toDecimal, hdiv, pure, Except.pure, bind, Except.bind]
  rfl

theorem isWritable_totals (t : Totals) :
    [Value.int t.rows, .int t.size, .int t.time].all Value.isWritable = true ↔ t.Writable := by
  simp only [List.all_cons, List.all_nil, Bool.and_true, Bool.and_eq_true, Value.isWritable, decide_eq_true_eq,
    Int.natAbs_natCast, Totals.Writable]
  tauto

/-- A store that holds totals gives what is made of these totals. -/
theorem summary_eq (hne : a.sizeTarget ≠ a.timeTarget) {s : Store} {t : Totals} (h : Holds s t) :
    a.summary s = (do
      let size ← converted .size (.int t.size) a.sizeUnit (.int (a.divisor t))
      let time ← converted .time (.int t.time) a.timeUnit (.int (a.divisor t))
      if t.Writable then return [(a.sizeTarget, .double size), (a.timeTarget, .double time)]
      else throw (.fault .longInteger)) := by
  have htotal (key : String) : (s.get? key (some .pipeline)).getD (.int 0) = s.total key := rfl
  have hcount : (Value.int t.rows).isPositive.mapError Failure.fault = pure (decide (0 < t.rows)) := by
    rw [isPositive_int]
    rfl
  have hentries (size time : Double) :
      Mapping.ofEntries [(a.sizeTarget, Value.double size), (a.timeTarget, .double time)] =
        [(a.sizeTarget, .double size), (a.timeTarget, .double time)] := by
    simp [Mapping.ofEntries, Mapping.put, hne]
  unfold summary
  simp only [htotal, h.size, h.time, h.rows, hcount, hentries, isWritable_totals]
  split
  · next hm =>
    have hd : (if decide (0 < t.rows) = true then Value.int t.rows else .int 1) = .int (a.divisor t) := by
      unfold divisor
      by_cases hrows : 0 < t.rows <;> simp [hm, hrows]
    simp only [pure_bind, hd]
  · next hm =>
    have hd : Value.int 1 = .int (a.divisor t) := by simp [divisor, hm]
    simp only [pure_bind, Bool.false_eq_true, if_false, hd]

/-- There is a row if the totals can be converted and written. -/
theorem summary_cases (hu : a.KnowsUnits) (hne : a.sizeTarget ≠ a.timeTarget) {s : Store} {t : Totals}
    (h : Holds s t) :
    (∃ row, a.row? t = some row ∧ a.summary s = if t.Writable then .ok row else .error (.fault .longInteger)) ∨
      a.row? t = none ∧ ∃ e, a.summary s = .error e := by
  have hsize := converted_eq hu.1 t.size (a.divisor t)
  have htime := converted_eq hu.2 t.time (a.divisor t)
  rw [summary_eq hne h]
  unfold row?
  rw [← hsize, ← htime]
  cases converted .size (.int t.size) a.sizeUnit (.int (a.divisor t)) with
  | error e => exact .inr ⟨rfl, e, rfl⟩
  | ok size =>
    cases converted .time (.int t.time) a.timeUnit (.int (a.divisor t)) with
    | error e => exact .inr ⟨rfl, e, rfl⟩
    | ok time => exact .inl ⟨_, rfl, rfl⟩

/-- A summary is the row of totals that can be written. -/
theorem row_of_summary (hu : a.KnowsUnits) (hne : a.sizeTarget ≠ a.timeTarget) {s : Store} {t : Totals} {row : Row}
    (h : Holds s t) (hrow : a.summary s = .ok row) : a.row? t = some row ∧ t.Writable := by
  rcases summary_cases hu hne h with ⟨row', hconverted, hsum⟩ | ⟨-, e, hsum⟩
  · rw [hsum] at hrow
    split at hrow
    · next hw =>
      cases hrow
      exact ⟨hconverted, hw⟩
    · cases hrow
  · rw [hsum] at hrow
    cases hrow

/-- Totals that can be converted have a row, unless they are too long to be written. -/
theorem summary_of_convertible (hu : a.KnowsUnits) (hne : a.sizeTarget ≠ a.timeTarget) {s : Store} {t : Totals}
    (h : Holds s t) (ht : t.Convertible) :
    ∃ row, a.row? t = some row ∧ a.summary s = if t.Writable then .ok row else .error (.fault .longInteger) := by
  rcases summary_cases hu hne h with hrow | ⟨hnone, -⟩
  · exact hrow
  · have hsome := row?_isSome hu ht
    rw [hnone] at hsome
    cases hsome

/-! ## A batch -/

/-- How a batch ends once its rows are added. -/
theorem execute_of_accumulateFrom {context : Context} {rows : List Row} {s s₁ : Session}
    (h : a.accumulateFrom 0 rows s = (.ok (), s₁)) :
    a.execute context rows s =
      if context.isLast = true then ((a.summary s₁.store).map fun row => some [row], s₁)
      else (.ok (some rows), s₁) := by
  have hget : (get : Action Session) s₁ = (.ok s₁, s₁) := rfl
  rw [execute, Action.bind_ok h]
  split
  · rw [Action.bind_ok hget]
    cases a.summary s₁.store <;> rfl
  · rfl

/-- A batch that goes through has added its rows. It is handed on as it is, or replaced by the summary of the
store if it is a boundary. -/
theorem accumulateFrom_of_execute {context : Context} {rows out : List Row} {s s' : Session}
    (hok : a.execute context rows s = (.ok (some out), s')) :
    a.accumulateFrom 0 rows s = (.ok (), s') ∧
      if context.isLast = true then ∃ row, a.summary s'.store = .ok row ∧ out = [row] else out = rows := by
  rcases hrun : a.accumulateFrom 0 rows s with ⟨f | _, s₁⟩
  · rw [execute, Action.bind_error hrun] at hok
    cases hok
  · rw [execute_of_accumulateFrom hrun] at hok
    split at hok
    · next hlast =>
      rw [if_pos hlast]
      cases hsum : a.summary s₁.store with
      | error e =>
        rw [hsum] at hok
        cases hok
      | ok row =>
        rw [hsum] at hok
        cases hok
        exact ⟨rfl, row, hsum, rfl⟩
    · next hlast =>
      rw [if_neg hlast]
      cases hok
      exact ⟨rfl, rfl⟩

/-- The rows of a batch that goes through can be read, and the store then holds their totals too. -/
theorem holds_of_execute {context : Context} {rows out : List Row} {s s' : Session} {t : Totals}
    (h : Holds s.store t) (hok : a.execute context rows s = (.ok (some out), s')) :
    (∀ row ∈ rows, a.Reads row) ∧ Holds s'.store (t + a.totals rows) := by
  have hrun := (accumulateFrom_of_execute hok).1
  have hr := reads_of_accumulateFrom h hrun
  obtain ⟨s₂, hrun₂, hh⟩ := accumulateFrom_ok 0 h hr
  rw [hrun] at hrun₂
  cases hrun₂
  exact ⟨hr, hh⟩

/-- A boundary batch yields the row of the totals, which can be written. -/
theorem execute_ok {context : Context} {rows out : List Row} {s s' : Session} {t : Totals}
    (hu : a.KnowsUnits) (hne : a.sizeTarget ≠ a.timeTarget) (h : Holds s.store t)
    (hok : a.execute context rows s = (.ok (some out), s')) :
    (∀ row ∈ rows, a.Reads row) ∧ Holds s'.store (t + a.totals rows) ∧
      if context.isLast = true then
        (t + a.totals rows).Writable ∧ ∃ row, a.row? (t + a.totals rows) = some row ∧ out = [row]
      else out = rows := by
  obtain ⟨hr, hh⟩ := holds_of_execute h hok
  have hout := (accumulateFrom_of_execute hok).2
  refine ⟨hr, hh, ?_⟩
  split at hout
  · next hlast =>
    obtain ⟨row, hrow, rfl⟩ := hout
    obtain ⟨hconverted, hw⟩ := row_of_summary hu hne hh hrow
    rw [if_pos hlast]
    exact ⟨hw, row, hconverted, rfl⟩
  · next hlast =>
    rw [if_neg hlast]
    exact hout

/-- A batch of rows that can be read goes through, if a boundary can write its totals. -/
theorem execute_goes (context : Context) {rows : List Row} {s : Session} {t : Totals}
    (hu : a.KnowsUnits) (hne : a.sizeTarget ≠ a.timeTarget) (h : Holds s.store t)
    (hr : ∀ row ∈ rows, a.Reads row) (hw : context.isLast = true → (t + a.totals rows).Writable) :
    ∃ out s', a.execute context rows s = (.ok (some out), s') := by
  obtain ⟨s₁, hrun, hh⟩ := accumulateFrom_ok 0 h hr
  rw [execute_of_accumulateFrom hrun]
  split
  · next hlast =>
    obtain ⟨row, -, hsum⟩ := summary_of_convertible hu hne hh (hw hlast).convertible
    rw [if_pos (hw hlast)] at hsum
    rw [hsum]
    exact ⟨_, _, rfl⟩
  · exact ⟨_, _, rfl⟩

/-- A boundary batch of rows that can be read fails as the summary of its totals does. -/
theorem execute_fails {context : Context} {rows : List Row} {s : Session} {t : Totals} {e : Failure}
    (hlast : context.isLast = true) (h : Holds s.store t) (hr : ∀ row ∈ rows, a.Reads row)
    (he : ∀ s', Holds s' (t + a.totals rows) → a.summary s' = .error e) :
    ∃ s', a.execute context rows s = (.error e, s') := by
  obtain ⟨s₁, hrun, hh⟩ := accumulateFrom_ok 0 h hr
  rw [execute_of_accumulateFrom hrun, if_pos hlast, he _ hh]
  exact ⟨_, rfl⟩

end Aggregate

end RowRecipe
