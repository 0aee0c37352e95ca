import RowRecipe.Error
import RowRecipe.Value.Arithmetic

/-!
# Outcomes

A value, or what went wrong: an error, or any value that stands for one. Only a carried error can be
raised again.
-/

namespace RowRecipe

/-- What an outcome without a value carries. -/
inductive Cause
  | value (v : Value)
  | failure (f : Failure)

/-- A value or a cause. -/
abbrev Outcome := Except Cause Value

/-- Why an outcome gives no value. -/
inductive NoValue
  | carried (f : Failure)
  | noError (outcome : String)

namespace NoValue

/-- What is wrong if there is no error to raise. -/
def message (outcome : String) : String :=
  s!"Cannot unwrap Err: {outcome}"

end NoValue

namespace Failure

/-- The kind and the quoted message of a failure. -/
def quoted : Failure → String
  | recipe e => s!"{e.kind}({Text.quoted e.message})"
  | usage e => s!"ValueError({Text.quoted e.message})"
  | fault f => s!"{f.kind}({Text.quoted f.text})"

end Failure

namespace Outcome

/-- The text of an outcome. -/
def text : Outcome → String
  | .ok v => s!"Ok({v.quoted})"
  | .error (.value v) => s!"Err({v.quoted})"
  | .error (.failure f) => s!"Err({f.quoted})"

/-- The value, or the carried error. -/
def value (o : Outcome) : Except NoValue Value :=
  match o with
  | .ok v => pure v
  | .error (.failure f) => throw (.carried f)
  | .error (.value _) => throw (.noError o.text)

/-- Whether two outcomes are equal. An error is equal to nothing else. -/
def same : Outcome → Outcome → Except NumberError Bool
  | .ok v, .ok w => v.same w
  | .error (.value v), .error (.value w) => v.same w
  | _, _ => pure false

/-- Adds to the value. -/
def addValue (amount : Value) : Outcome → Except Fault Outcome
  | .ok v => return .ok (← v.add amount)
  | o => pure o

/-- Adds to the value that stands for an error. -/
def addToCause (amount : Value) : Outcome → Except Fault Outcome
  | .error (.value v) => return .error (.value (← v.add amount))
  | .error (.failure _) => throw (.type "unsupported operand type(s) for +")
  | o => pure o

end Outcome

end RowRecipe
