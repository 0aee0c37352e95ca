import RowRecipe.Text.Printable

/-!
# Quoted texts

A quoted text stands in single quotes, or in double quotes if it holds single quotes only. The quote,
the backslash and every character that is not printable are escaped.
-/

namespace RowRecipe.Text

/-- The last `width` hexadecimal digits of `n`, in lower case. -/
def hex (n width : Nat) : List Char :=
  match width with
  | 0 => []
  | width + 1 => hex (n / 16) width ++ [(n % 16).digitChar]

/-- One character inside the given quotes. -/
def escaped (quote c : Char) : List Char :=
  if c = quote ∨ c = '\\' then ['\\', c]
  else if c = '\n' then ['\\', 'n']
  else if c = '\r' then ['\\', 'r']
  else if c = '\t' then ['\\', 't']
  else if isPrintable c then [c]
  else if c.toNat < 0x100 then '\\' :: 'x' :: hex c.toNat 2
  else if c.toNat < 0x10000 then '\\' :: 'u' :: hex c.toNat 4
  else '\\' :: 'U' :: hex c.toNat 8

/-- The quotes in which a text is written. -/
def quoteFor (cs : List Char) : Char :=
  if cs.contains '\'' && !cs.contains '"' then '"' else '\''

/-- The text in quotes. -/
def quoted (s : String) : String :=
  let q := quoteFor s.toList
  String.ofList (q :: s.toList.flatMap (escaped q) ++ [q])

/-- The text with every character outside ASCII escaped by its UTF-16 units. -/
def jsonEscaped (c : Char) : List Char :=
  if c = '"' ∨ c = '\\' then ['\\', c]
  else if c = '\n' then ['\\', 'n']
  else if c = '\r' then ['\\', 'r']
  else if c = '\t' then ['\\', 't']
  else if c = '\x08' then ['\\', 'b']
  else if c = '\x0c' then ['\\', 'f']
  else if 0x20 ≤ c.toNat ∧ c.toNat < 0x7f then [c]
  else if c.toNat < 0x10000 then '\\' :: 'u' :: hex c.toNat 4
  else
    let n := c.toNat - 0x10000
    '\\' :: 'u' :: hex (0xd800 + n / 0x400) 4 ++ '\\' :: 'u' :: hex (0xdc00 + n % 0x400) 4

/-- The text as a JSON string of ASCII characters. -/
def json (s : String) : String :=
  String.ofList ('"' :: s.toList.flatMap jsonEscaped ++ ['"'])

end RowRecipe.Text
