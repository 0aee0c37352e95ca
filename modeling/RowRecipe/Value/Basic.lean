import RowRecipe.Number.Order
import RowRecipe.Unit.Quantity

/-!
# Dynamic values

What a cell of a row, an entry of the store, a property or a setting can hold. Numbers of different
kinds are equal if they are the same number, and a truth value counts as zero or one; all other values
are equal only to values of their own kind. A comparison that meets a signaling decimal beside another
number has no answer.
-/

namespace RowRecipe

/-- A dynamic value. -/
inductive Value
  | null
  | bool (b : Bool)
  | int (n : Int)
  | double (d : Double)
  | decimal (d : Decimal)
  | text (s : String)
  | quantity (q : Quantity)
  /-- A sequence that was given as data. -/
  | list (items : List Value)
  /-- A fixed sequence, as the lists of a statement are. -/
  | tuple (items : List Value)
  /-- A mapping in the order in which its keys were first written. -/
  | map (entries : List (String × Value))

namespace Value

instance : Inhabited Value := ⟨.null⟩

/-- The name of the type of a value, as messages give it. -/
def typeName : Value → String
  | null => "NoneType"
  | bool _ => "bool"
  | int _ => "int"
  | double _ => "float"
  | decimal _ => "Decimal"
  | text _ => "str"
  | quantity q => q.kind.typeName
  | list _ => "list"
  | tuple _ => "tuple"
  | map _ => "dict"

/-- The number that a value is. -/
def number? : Value → Option Decimal
  | bool b => some (.ofInt b.toInt)
  | int n => some (.ofInt n)
  | double d => some d.exact
  | decimal d => some d
  | _ => none

mutual

/-- Whether two values are equal. The order of a mapping does not matter. -/
def same : Value → Value → Except NumberError Bool
  | null, null => pure true
  | text s, text t => pure (s == t)
  | quantity p, quantity q => pure (p.same q)
  | list xs, list ys => if xs.length = ys.length then sameItems xs ys else pure false
  | tuple xs, tuple ys => sameItems xs ys
  | map es, map fs => if es.length = fs.length then sameEntries es fs else pure false
  | v, w =>
    match v.number?, w.number? with
    | some c, some d => c.same d
    | _, _ => pure false

/-- Whether two sequences have equal items; the first difference decides. -/
def sameItems : List Value → List Value → Except NumberError Bool
  | [], [] => pure true
  | v :: vs, w :: ws => do
    if ← v.same w then sameItems vs ws else return false
  | _, _ => pure false

/-- Whether every entry has an equal partner among the others; the first difference decides. -/
def sameEntries : List (String × Value) → List (String × Value) → Except NumberError Bool
  | [], _ => pure true
  | (k, v) :: es, fs =>
    match fs.lookup k with
    | some w => do
      if ← v.same w then sameEntries es fs else return false
    | none => pure false

end

/-- Whether a value can be looked up in a table: sequences that were given as data, mappings and signaling
decimals cannot. -/
def isKey : Value → Bool
  | list _ | map _ => false
  | decimal d => !d.isSignaling
  | _ => true

/-- Whether a value counts as given: neither null, nor false, nor zero, nor empty. -/
def isGiven : Value → Bool
  | null => false
  | text s => !s.isEmpty
  | quantity _ => true
  | list xs | tuple xs => !xs.isEmpty
  | map es => !es.isEmpty
  | v =>
    match v.number? with
    | some d => d.compare? (.finite false 0 0) != some .eq
    | none => true

end Value

end RowRecipe
