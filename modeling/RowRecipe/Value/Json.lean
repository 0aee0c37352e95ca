import RowRecipe.Mapping
import RowRecipe.Value.Basic

/-!
# Reading JSON

The values that JSON texts denote. Numbers with a fraction or an exponent are doubles, and the names of
the infinities and of no number are read as well. Of entries with one key the last one counts.
-/

namespace RowRecipe.Json

/-- The blank characters of JSON. -/
def isSpace (c : Char) : Bool :=
  c == ' ' || c == '\t' || c == '\n' || c == '\r'

def skip (cs : List Char) : List Char :=
  cs.dropWhile isSpace

/-- What follows a fixed word. -/
def after? (word : String) (cs : List Char) : Option (List Char) :=
  if word.toList.isPrefixOf cs then some (cs.drop word.length) else none

/-! ## Texts -/

def hexValue? (c : Char) : Option Nat :=
  if c.isDigit then some (c.toNat - '0'.toNat)
  else if 'a' ≤ c && c ≤ 'f' then some (c.toNat - 'a'.toNat + 10)
  else if 'A' ≤ c && c ≤ 'F' then some (c.toNat - 'A'.toNat + 10)
  else none

/-- The number that hexadecimal digits denote. -/
def hexNumber? (cs : List Char) : Option Nat :=
  cs.foldlM (fun n c => (hexValue? c).map (16 * n + ·)) 0

/-- The character of a one-letter escape. -/
def escape? (c : Char) : Option Char :=
  if c = '"' ∨ c = '\\' ∨ c = '/' then some c
  else if c = 'b' then some '\x08'
  else if c = 'f' then some '\x0c'
  else if c = 'n' then some '\n'
  else if c = 'r' then some '\r'
  else if c = 't' then some '\t'
  else none

/-- The numbers of the characters up to the closing quote, and what follows it. Escaped characters
outside the first plane are two numbers still. -/
def units? : List Char → Option (List Nat × List Char)
  | [] => none
  | '"' :: cs => some ([], cs)
  | '\\' :: 'u' :: a :: b :: c :: d :: cs => do
    let n ← hexNumber? [a, b, c, d]
    let r ← units? cs
    return (n :: r.1, r.2)
  | '\\' :: c :: cs => do
    let c ← escape? c
    let r ← units? cs
    return (c.toNat :: r.1, r.2)
  | c :: cs => do
    if c.toNat < 0x20 ∨ c = '\\' then none
    let r ← units? cs
    return (c.toNat :: r.1, r.2)

/-- Joins the two halves of characters outside the first plane. A half without its partner is shown by
the replacement character. -/
def joinHalves : List Nat → List Char
  | [] => []
  | [n] => [if 0xd800 ≤ n && n < 0xe000 then '\ufffd' else Char.ofNat n]
  | m :: n :: ns =>
    if 0xd800 ≤ m && m < 0xdc00 && 0xdc00 ≤ n && n < 0xe000 then
      Char.ofNat (0x10000 + (m - 0xd800) * 0x400 + (n - 0xdc00)) :: joinHalves ns
    else (if 0xd800 ≤ m && m < 0xe000 then '\ufffd' else Char.ofNat m) :: joinHalves (n :: ns)

/-- A text, without its opening quote, and what follows it. -/
def string? (cs : List Char) : Option (String × List Char) :=
  (units? cs).map fun r => (String.ofList (joinHalves r.1), r.2)

/-! ## Numbers -/

/-- The number that digits denote. -/
def digits (cs : List Char) : Nat :=
  cs.foldl (fun n c => 10 * n + (c.toNat - '0'.toNat)) 0

/-- Splits off the digits at the start. -/
def digitRun (cs : List Char) : List Char × List Char :=
  (cs.takeWhile (·.isDigit), cs.dropWhile (·.isDigit))

/-- The digits behind a point, if there are any. -/
def fraction : List Char → List Char × List Char
  | '.' :: cs => let r := digitRun cs; if r.1.isEmpty then ([], '.' :: cs) else r
  | cs => ([], cs)

/-- The exponent, if there is one. -/
def exponent? : List Char → Option (Int × List Char)
  | c :: cs =>
    if c = 'e' ∨ c = 'E' then
      let (negative, rest) := match cs with
        | '-' :: cs => (true, cs)
        | '+' :: cs => (false, cs)
        | cs => (false, cs)
      let r := digitRun rest
      if r.1.isEmpty then none
      else some (if negative then -(digits r.1 : Int) else digits r.1, r.2)
    else none
  | [] => none

/-- The double nearest to a decimal with the given digits. -/
def double (negative : Bool) (coefficient : Nat) (exponent : Int) : Value :=
  match Double.ofDecimal (.finite negative coefficient exponent) with
  | .ok d => .double d
  | .error _ => .null

/-- A number without sign, and what follows it. A leading zero stands alone. -/
def number? (negative : Bool) (cs : List Char) : Option (Value × List Char) :=
  let whole := match cs with
    | '0' :: cs => (['0'], cs)
    | cs => digitRun cs
  if whole.1.isEmpty then none
  else
    let part := fraction whole.2
    let coefficient := digits (whole.1 ++ part.1)
    match exponent? part.2 with
    | some (e, rest) => some (double negative coefficient (e - part.1.length), rest)
    | none =>
      if part.1.isEmpty then
        some (.int (if negative then -(coefficient : Int) else coefficient), whole.2)
      else some (double negative coefficient (-part.1.length), part.2)

/-- A value that holds no others, and what follows it. -/
def scalar? (cs : List Char) : Option (Value × List Char) :=
  let named (word : String) (v : Value) : Option (Value × List Char) := (after? word cs).map (v, ·)
  match cs with
  | '"' :: cs => (string? cs).map fun r => (.text r.1, r.2)
  | '-' :: rest => number? true rest <|> named "-Infinity" (.double (.infinite true))
  | _ =>
    named "null" .null <|> named "true" (.bool true) <|> named "false" (.bool false) <|>
      named "NaN" (.double .nan) <|> named "Infinity" (.double (.infinite false)) <|> number? false cs

/-! ## Values -/

mutual

/-- A value, and what follows it. -/
def value? : Nat → List Char → Option (Value × List Char)
  | 0, _ => none
  | fuel + 1, '[' :: cs =>
    match skip cs with
    | ']' :: rest => some (.list [], rest)
    | cs => (items? fuel cs).map fun r => (.list r.1, r.2)
  | fuel + 1, '\x7b' :: cs =>
    match skip cs with
    | '\x7d' :: rest => some (.map [], rest)
    | cs => (entries? fuel cs).map fun r => (.map (Mapping.ofEntries r.1), r.2)
  | _ + 1, cs => scalar? cs

/-- The items of a list that is not empty, and what follows its end. -/
def items? : Nat → List Char → Option (List Value × List Char)
  | 0, _ => none
  | fuel + 1, cs =>
    match value? fuel cs with
    | none => none
    | some (v, rest) =>
      match skip rest with
      | ']' :: rest => some ([v], rest)
      | ',' :: rest => (items? fuel (skip rest)).map fun r => (v :: r.1, r.2)
      | _ => none

/-- The entries of an object that is not empty, and what follows its end. -/
def entries? : Nat → List Char → Option (List (String × Value) × List Char)
  | 0, _ => none
  | fuel + 1, cs =>
    match cs with
    | '"' :: cs =>
      match string? cs with
      | none => none
      | some (key, rest) =>
        match skip rest with
        | ':' :: rest =>
          match value? fuel (skip rest) with
          | none => none
          | some (v, rest) =>
            match skip rest with
            | '\x7d' :: rest => some ([(key, v)], rest)
            | ',' :: rest => (entries? fuel (skip rest)).map fun r => ((key, v) :: r.1, r.2)
            | _ => none
        | _ => none
    | _ => none

end

/-- Reads a JSON text. Every value takes a character at least, so its length bounds the depth. -/
def read? (text : String) : Option Value :=
  match value? (2 * text.length + 2) (skip text.toList) with
  | some (v, rest) => if (skip rest).isEmpty then some v else none
  | none => none

end RowRecipe.Json
