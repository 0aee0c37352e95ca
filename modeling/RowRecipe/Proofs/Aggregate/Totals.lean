import Mathlib.Algebra.BigOperators.Group.List.Basic
import RowRecipe.Directive.Aggregate
import RowRecipe.Proofs.Directive.Action
import RowRecipe.Proofs.Unit.Conversion

/-!
# Totals of rows

What an aggregation adds up, said of the rows alone: the canonical amounts of two columns, and the number of
rows. The totals do not depend on the order of the rows or on how they are cut into batches. Adding rows to
a store that holds totals gives a store that holds the totals of all rows, if every cell can be read.
-/

namespace RowRecipe

/-- The canonical amount of a cell, if it can be read as a quantity; null amounts to nothing. -/
def Value.canonical? (kind : UnitKind) : Value → Option Nat
  | .null => some 0
  | .quantity q => if q.kind = kind then some q.canonical else none
  | .text s => (Quantity.ofText kind s).toOption.map (·.canonical)
  | _ => none

/-- What is added up: bytes, milliseconds and rows. -/
structure Totals where
  size : Nat
  time : Nat
  rows : Nat
  deriving DecidableEq

namespace Totals

instance : Add Totals := ⟨fun t u => ⟨t.size + u.size, t.time + u.time, t.rows + u.rows⟩⟩

theorem add_def (t u : Totals) : t + u = ⟨t.size + u.size, t.time + u.time, t.rows + u.rows⟩ := rfl

theorem add_assoc (t u v : Totals) : t + u + v = t + (u + v) := by
  simp only [add_def, Nat.add_assoc]

end Totals

namespace Aggregate

variable (a : Aggregate)

/-- The canonical amount of a column in a row. A missing cell is null. -/
def amountOf? (kind : UnitKind) (column : String) (row : Row) : Option Nat :=
  ((Mapping.get? row column).getD .null).canonical? kind

/-- The sum of the canonical amounts of a column. -/
def sumOf (kind : UnitKind) (column : String) (rows : List Row) : Nat :=
  (rows.map fun row => (amountOf? kind column row).getD 0).sum

/-- The totals of rows. -/
def totals (rows : List Row) : Totals :=
  ⟨sumOf .size a.sizeColumn rows, sumOf .time a.timeColumn rows, rows.length⟩

/-- Both cells of a row can be read. -/
def Reads (row : Row) : Prop :=
  (amountOf? .size a.sizeColumn row).isSome ∧ (amountOf? .time a.timeColumn row).isSome

/-- The entries of the pipeline are the totals; an absent entry counts as zero. -/
structure Holds (s : Store) (t : Totals) : Prop where
  size : s.total totalSizeKey = .int t.size
  time : s.total totalTimeKey = .int t.time
  rows : s.total rowCountKey = .int t.rows

theorem holds_empty : Holds .empty (a.totals []) := ⟨rfl, rfl, rfl⟩

/-! ## Laws of totals -/

theorem sumOf_append (kind : UnitKind) (column : String) (xs ys : List Row) :
    sumOf kind column (xs ++ ys) = sumOf kind column xs + sumOf kind column ys := by
  simp [sumOf]

theorem totals_append (xs ys : List Row) : a.totals (xs ++ ys) = a.totals xs + a.totals ys := by
  simp [totals, sumOf_append, Totals.add_def]

/-- The order of the rows does not matter. -/
theorem totals_perm {xs ys : List Row} (h : xs.Perm ys) : a.totals xs = a.totals ys := by
  have hsum (kind : UnitKind) (column : String) : sumOf kind column xs = sumOf kind column ys :=
    (h.map _).sum_eq
  rw [totals, totals, hsum, hsum, h.length_eq]

/-! ## Adding one cell -/

theorem amount?_cases (kind : UnitKind) (index : Nat) (column : String) (v : Value) :
    (v.canonical? kind = some 0 ∧ amount? kind index column v = .ok none) ∨
      (∃ n, v.canonical? kind = some n ∧ amount? kind index column v = .ok (some n)) ∨
      ∃ e, v.canonical? kind = none ∧ amount? kind index column v = .error e := by
  cases v with
  | null => exact .inl ⟨rfl, rfl⟩
  | quantity q =>
    right
    unfold amount? Value.canonical?
    dsimp only
    split
    · exact .inl ⟨_, rfl, rfl⟩
    · exact .inr ⟨_, rfl, rfl⟩
  | text s =>
    right
    unfold amount? Value.canonical?
    dsimp only
    cases Quantity.ofText kind s with
    | ok q => exact .inl ⟨_, rfl, rfl⟩
    | error e => exact .inr ⟨_, rfl, rfl⟩
  | _ => exact .inr (.inr ⟨_, rfl, rfl⟩)

variable {a} {s : Session} {row : Row}

/-- A cell that can be read adds its amount to the entry, and to no other. -/
theorem accumulateCell_ok {kind : UnitKind} {column : String} (key : String) {k n : Nat} (index : Nat)
    (hk : s.store.total key = .int k) (hn : amountOf? kind column row = some n) :
    ∃ t, accumulateCell kind index column key row s = (.ok (), t) ∧
      ∀ key', t.store.total key' = if key' = key then .int (k + n : Nat) else s.store.total key' := by
  unfold amountOf? at hn
  unfold accumulateCell
  rcases amount?_cases kind index column ((Mapping.get? row column).getD .null) with
    ⟨hc, ha⟩ | ⟨m, hc, ha⟩ | ⟨e, hc, ha⟩
  · rw [hc] at hn
    cases hn
    rw [ha]
    refine ⟨s, rfl, fun key' => ?_⟩
    split
    · next h => rw [h, hk, Nat.add_zero]
    · rfl
  · rw [hc] at hn
    cases hn
    rw [ha]
    dsimp only
    rw [Action.bind_ok (Action.increment_of_total hk n)]
    exact ⟨_, rfl, fun key' => Store.total_set _ _ _ _⟩
  · rw [hc] at hn
    cases hn

/-- A cell that cannot be read stops the row. -/
theorem accumulateCell_error {kind : UnitKind} {column : String} (key : String) (index : Nat)
    (hn : amountOf? kind column row = none) :
    ∃ f t, accumulateCell kind index column key row s = (.error f, t) := by
  unfold amountOf? at hn
  unfold accumulateCell
  rcases amount?_cases kind index column ((Mapping.get? row column).getD .null) with
    ⟨hc, -⟩ | ⟨m, hc, -⟩ | ⟨e, -, ha⟩
  · rw [hc] at hn
    cases hn
  · rw [hc] at hn
    cases hn
  · rw [ha]
    exact ⟨_, _, rfl⟩

/-! ## Adding rows -/

/-- A row that can be read adds its totals. -/
theorem accumulateRow_ok {t : Totals} (index : Nat) (h : Holds s.store t) (hr : a.Reads row) :
    ∃ s', a.accumulateRow index row s = (.ok (), s') ∧ Holds s'.store (t + a.totals [row]) := by
  obtain ⟨size, hsize⟩ := Option.isSome_iff_exists.mp hr.1
  obtain ⟨time, htime⟩ := Option.isSome_iff_exists.mp hr.2
  have hkeys : totalTimeKey ≠ totalSizeKey ∧ rowCountKey ≠ totalSizeKey ∧ rowCountKey ≠ totalTimeKey ∧
      totalSizeKey ≠ totalTimeKey := by decide
  obtain ⟨s₁, hrun₁, ht₁⟩ := accumulateCell_ok totalSizeKey index h.size hsize
  obtain ⟨s₂, hrun₂, ht₂⟩ := accumulateCell_ok (s := s₁) totalTimeKey (k := t.time) index
    (by rw [ht₁, if_neg hkeys.1, h.time]) htime
  have hcount : s₂.store.total rowCountKey = .int t.rows := by
    rw [ht₂, if_neg hkeys.2.2.1, ht₁, if_neg hkeys.2.1, h.rows]
  have htotals : a.totals [row] = ⟨size, time, 1⟩ := by
    simp [totals, sumOf, hsize, htime]
  rw [accumulateRow, Action.bind_ok hrun₁, Action.bind_ok hrun₂,
    Action.bind_ok (Action.increment_of_total hcount 1), htotals, Totals.add_def]
  refine ⟨_, rfl, ?_, ?_, ?_⟩
  · dsimp only
    rw [Store.total_set, if_neg hkeys.2.1.symm, ht₂, if_neg hkeys.2.2.2, ht₁, if_pos rfl]
  · dsimp only
    rw [Store.total_set, if_neg hkeys.2.2.1.symm, ht₂, if_pos rfl]
  · dsimp only
    rw [Store.total_set, if_pos rfl]
    rfl

/-- A row that cannot be read stops the batch. -/
theorem accumulateRow_error {t : Totals} (index : Nat) (h : Holds s.store t) (hr : ¬ a.Reads row) :
    ∃ f s', a.accumulateRow index row s = (.error f, s') := by
  unfold accumulateRow
  cases hsize : amountOf? .size a.sizeColumn row with
  | none =>
    obtain ⟨f, s', hrun⟩ := accumulateCell_error (s := s) totalSizeKey index hsize
    rw [Action.bind_error hrun]
    exact ⟨f, s', rfl⟩
  | some size =>
    cases htime : amountOf? .time a.timeColumn row with
    | none =>
      obtain ⟨s₁, hrun₁, -⟩ := accumulateCell_ok totalSizeKey index h.size hsize
      obtain ⟨f, s', hrun⟩ := accumulateCell_error (s := s₁) totalTimeKey index htime
      rw [Action.bind_ok hrun₁, Action.bind_error hrun]
      exact ⟨f, s', rfl⟩
    | some time => exact absurd ⟨by rw [hsize]; rfl, by rw [htime]; rfl⟩ hr

/-- Rows that can be read add their totals. -/
theorem accumulateFrom_ok {rows : List Row} {t : Totals} (index : Nat) (h : Holds s.store t)
    (hr : ∀ row ∈ rows, a.Reads row) :
    ∃ s', a.accumulateFrom index rows s = (.ok (), s') ∧ Holds s'.store (t + a.totals rows) := by
  induction rows generalizing index s t with
  | nil => exact ⟨s, rfl, h⟩
  | cons row rows ih =>
    obtain ⟨s₁, hrun₁, h₁⟩ := accumulateRow_ok index h (hr row List.mem_cons_self)
    obtain ⟨s₂, hrun₂, h₂⟩ := ih (index + 1) h₁ fun r hin => hr r (List.mem_cons_of_mem _ hin)
    refine ⟨s₂, ?_, ?_⟩
    · rw [accumulateFrom, Action.bind_ok hrun₁, hrun₂]
    · rwa [Totals.add_assoc, ← totals_append] at h₂

/-- Only rows that can be read are added to the end. -/
theorem reads_of_accumulateFrom {rows : List Row} {t : Totals} {index : Nat} {s' : Session}
    (h : Holds s.store t) (hok : a.accumulateFrom index rows s = (.ok (), s')) :
    ∀ row ∈ rows, a.Reads row := by
  induction rows generalizing index s t with
  | nil => exact fun _ hin => absurd hin List.not_mem_nil
  | cons row rows ih =>
    by_cases hr : a.Reads row
    · obtain ⟨s₁, hrun₁, h₁⟩ := accumulateRow_ok index h hr
      rw [accumulateFrom, Action.bind_ok hrun₁] at hok
      exact List.forall_mem_cons.mpr ⟨hr, ih h₁ hok⟩
    · obtain ⟨f, s₁, hrun⟩ := accumulateRow_error index h hr
      rw [accumulateFrom, Action.bind_error hrun] at hok
      cases hok

end Aggregate

end RowRecipe
