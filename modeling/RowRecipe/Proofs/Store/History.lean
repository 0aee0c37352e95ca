import RowRecipe.Proofs.Mapping
import RowRecipe.Store

/-!
# Stores and their history

What a store answers is settled by the calls that were made on it. A call leaves at most one event: it writes an
entry, or it clears a scope, and an increment that is refused leaves none. A scope holds what was written to it since
it was last cleared: under each name the value that was written last, and the names in the order in which they were
first written.
-/

namespace RowRecipe

namespace Store

/-! ## Calls -/

/-- A call that may change a store. -/
inductive Call
  | set (scope : Scope) (name : String) (value : Value)
  | increment (scope : Scope) (name : String) (amount : Value)
  | reset (scope : Scope)

/-- What the call leaves of the store, also where it is refused. -/
def Call.run (s : Store) : Call → Store
  | set scope name value => s.set scope name value
  | increment scope name amount =>
    match s.increment scope name amount with
    | .ok r => r.2
    | .error _ => s
  | reset scope => s.reset scope

/-- The store that calls make of the empty one. -/
def after (calls : List Call) : Store :=
  calls.foldl Call.run .empty

/-! ## Events -/

/-- What a call has done. -/
inductive Event
  | written (scope : Scope) (name : String) (value : Value)
  | cleared (scope : Scope)

namespace Event

/-- Whether the event removes the entries of the scope. -/
def clears (scope : Scope) : Event → Bool
  | written .. => false
  | cleared other => other == scope

/-- The entry that the event writes to the scope. -/
def entry? (scope : Scope) : Event → Option (String × Value)
  | written other name value => if other = scope then some (name, value) else none
  | cleared _ => none

end Event

/-- What was written to the scope since it was last cleared. -/
def writes (scope : Scope) (events : List Event) : List (String × Value) :=
  (events.rtakeWhile fun e => !e.clears scope).filterMap (Event.entry? scope)

/-- The value that was written last to the scope under the name, since the scope was last cleared. -/
def lastWritten? (scope : Scope) (name : String) (events : List Event) : Option Value :=
  (writes scope events).reverse.lookup name

/-- A value as an operand of an increment: no value and null count as zero. -/
def counted : Option Value → Value
  | none | some .null => .int 0
  | some v => v

/-- The events up to a call and the one that the call adds. -/
def record (events : List Event) : Call → List Event
  | .set scope name value => events ++ [.written scope name value]
  | .increment scope name amount =>
    match (counted (lastWritten? scope name events)).add amount with
    | .ok sum => events ++ [.written scope name sum]
    | .error _ => events
  | .reset scope => events ++ [.cleared scope]

/-- The events of calls on the empty store. -/
def history (calls : List Call) : List Event :=
  calls.foldl record []

/-! ## One call -/

variable {s : Store} {events : List Event}

theorem writes_concat (scope : Scope) (events : List Event) (e : Event) :
    writes scope (events ++ [e]) =
      if e.clears scope then [] else writes scope events ++ (e.entry? scope).toList := by
  unfold writes
  rw [List.rtakeWhile_concat]
  cases e.clears scope
  · cases h : e.entry? scope <;> simp [h]
  · simp

theorem entries_withEntries (s : Store) (scope other : Scope) (es : Mapping Value) :
    (s.withEntries scope es).entries other = if other = scope then es else s.entries other := by
  cases scope <;> cases other <;> simp [withEntries, entries]

theorem entries_set (s : Store) (scope other : Scope) (name : String) (value : Value) :
    (s.set scope name value).entries other =
      if other = scope then (s.entries scope).put name value else s.entries other :=
  s.entries_withEntries scope other _

theorem get?_some (s : Store) (scope : Scope) (name : String) :
    s.get? name (some scope) = (s.entries scope).get? name := rfl

/-- Without a scope, the batch scope is asked first. -/
theorem get?_none (s : Store) (name : String) :
    s.get? name none = (s.get? name (some .batch)).or (s.get? name (some .pipeline)) := by
  simp [get?, entries]

theorem increment_eq (s : Store) (scope : Scope) (name : String) (amount : Value) :
    s.increment scope name amount =
      ((counted (s.get? name (some scope))).add amount).map fun sum => (sum, s.set scope name sum) := by
  have hcounted : counted (s.get? name (some scope)) =
      match s.get? name (some scope) with
      | none | some .null => .int 0
      | some v => v := rfl
  unfold increment
  rw [hcounted]
  dsimp only
  generalize Value.add _ amount = sum
  cases sum <;> rfl

/-- Both scopes of the store hold what the events have written to them. -/
def Holds (s : Store) (events : List Event) : Prop :=
  ∀ scope, s.entries scope = Mapping.ofEntries (writes scope events)

theorem Holds.get? (h : s.Holds events) (scope : Scope) (name : String) :
    s.get? name (some scope) = lastWritten? scope name events := by
  rw [get?_some, h scope, Mapping.get?_ofEntries]
  rfl

theorem Holds.set (h : s.Holds events) (scope : Scope) (name : String) (value : Value) :
    (s.set scope name value).Holds (events ++ [.written scope name value]) := by
  intro other
  rw [entries_set, writes_concat, h other, h scope]
  by_cases hother : other = scope
  · simp [hother, Event.clears, Event.entry?, Mapping.ofEntries_concat]
  · simp [hother, Ne.symm hother, Event.clears, Event.entry?]

theorem Holds.reset (h : s.Holds events) (scope : Scope) :
    (s.reset scope).Holds (events ++ [.cleared scope]) := by
  intro other
  rw [Store.reset, entries_withEntries, writes_concat, h other]
  by_cases hother : other = scope
  · simp [hother, Event.clears, Mapping.ofEntries]
  · simp [hother, Ne.symm hother, Event.clears, Event.entry?]

/-- A call does to the store what its event says. -/
theorem Holds.run (h : s.Holds events) (call : Call) : (call.run s).Holds (record events call) := by
  cases call with
  | set scope name value => exact h.set scope name value
  | reset scope => exact h.reset scope
  | increment scope name amount =>
    simp only [Call.run, record, increment_eq, h.get?]
    cases (counted (lastWritten? scope name events)).add amount with
    | ok sum => exact h.set scope name sum
    | error f => exact h

/-! ## All calls -/

theorem after_concat (calls : List Call) (call : Call) : after (calls ++ [call]) = call.run (after calls) := by
  simp [after]

theorem history_concat (calls : List Call) (call : Call) :
    history (calls ++ [call]) = record (history calls) call := by
  simp [history]

theorem holds_after (calls : List Call) : (after calls).Holds (history calls) := by
  induction calls using List.reverseRecOn with
  | nil =>
    intro scope
    cases scope <;> rfl
  | append_singleton calls call ih =>
    rw [after_concat, history_concat]
    exact ih.run call

/-- What a store answers, in terms of the events so far. -/
structure Answers (s : Store) (events : List Event) : Prop where
  /-- A null that stands in the batch scope is an answer, too. -/
  anywhere (name : String) (default : Value) : (s.get? name none).getD default =
    ((lastWritten? .batch name events).or (lastWritten? .pipeline name events)).getD default
  within (scope : Scope) (name : String) (default : Value) :
    (s.get? name (some scope)).getD default = (lastWritten? scope name events).getD default
  has_anywhere (name : String) : s.has name none = true ↔ ∃ scope, (lastWritten? scope name events).isSome
  has_within (scope : Scope) (name : String) :
    s.has name (some scope) = true ↔ (lastWritten? scope name events).isSome
  names (scope : Scope) : (s.entries scope).keys = ((writes scope events).map (·.1)).eraseDups
  /-- An increment adds to what the scope itself holds; it writes and returns the sum. -/
  increment {scope : Scope} {name : String} {amount sum : Value}
    (h : (counted (lastWritten? scope name events)).add amount = .ok sum) :
    s.increment scope name amount = .ok (sum, s.set scope name sum)
  refused {scope : Scope} {name : String} {amount : Value} {f : Fault}
    (h : (counted (lastWritten? scope name events)).add amount = .error f) :
    s.increment scope name amount = .error f ∧ (Call.increment scope name amount).run s = s

theorem Holds.answers (h : s.Holds events) : s.Answers events where
  anywhere name default := by rw [get?_none, h.get?, h.get?]
  within scope name default := by rw [h.get?]
  has_anywhere name := by
    rw [has, get?_none, h.get?, h.get?, Option.isSome_or, Bool.or_eq_true]
    constructor
    · rintro (hbatch | hpipeline)
      · exact ⟨.batch, hbatch⟩
      · exact ⟨.pipeline, hpipeline⟩
    · rintro ⟨scope, hscope⟩
      cases scope with
      | batch => exact .inl hscope
      | pipeline => exact .inr hscope
  has_within scope name := by rw [has, h.get?]
  names scope := by rw [h scope, Mapping.keys_ofEntries]
  increment hsum := by
    rw [increment_eq, h.get?, hsum]
    rfl
  refused hsum := by
    simp only [Call.run, increment_eq, h.get?, hsum]
    exact ⟨rfl, rfl⟩

/-- After all calls, also after refused ones, the store answers as the history of the calls says. -/
theorem answers_of_history (calls : List Call) : (after calls).Answers (history calls) :=
  (holds_after calls).answers

/-- A null in the batch scope hides an entry of the pipeline scope, but an increment counts it as zero. -/
example : (after [.set .pipeline "n" (.int 5), .set .batch "n" .null]).get? "n" none = some .null ∧
    (after [.set .pipeline "n" (.int 5), .set .batch "n" .null, .increment .batch "n" (.int 2)]).get? "n" none =
      some (.int 2) :=
  ⟨rfl, rfl⟩

end Store

end RowRecipe
