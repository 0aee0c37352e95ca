import RowRecipe.Token.Basic

/-!
# Usage definitions

A directive declares its arguments once, as an ordered list of named slots. A slot accepts one or more
variants of tokens and may be optional, with or without a default. Slots are added one by one; a slot
that would make the usage ambiguous is refused.
-/

namespace RowRecipe

/-- One named argument position. -/
structure UsageSlot where
  name : String
  accepts : List TokenType
  optional : Bool
  default? : Option Token

namespace UsageSlot

variable (s : UsageSlot)

def acceptsToken (t : Token) : Bool :=
  s.accepts.contains t.type

/-- The variants that the slot accepts. -/
def alternatives : String :=
  TokenType.alternatives s.accepts

/-- The slot as a usage line shows it. -/
def text : String :=
  let inner := s!"<{s.name}:{s.alternatives}>"
  if s.optional then s!"[{inner}]" else inner

end UsageSlot

/-- Why a slot is refused. -/
inductive UsageError
  | acceptsNothing (slot : String)
  | duplicate (slot directive : String)
  | wrongDefault (slot : String) (found : TokenType) (accepts : List TokenType)
  | requiredAfterOptional (slot directive : String)

namespace UsageError

def message : UsageError → String
  | acceptsNothing slot => s!"Slot '{slot}' must accept at least one token type"
  | duplicate slot directive => s!"Slot '{slot}' is already defined for '{directive}'"
  | wrongDefault slot found accepts =>
    s!"Default for slot '{slot}' is {found.name}, expected {TokenType.alternatives accepts}"
  | requiredAfterOptional slot directive =>
    s!"Required slot '{slot}' cannot follow an optional slot in '{directive}'"

end UsageError

/-- The arguments of a directive. -/
structure UsageDefinition where
  directive : String
  slots : List UsageSlot

namespace UsageDefinition

/-- A usage without slots. -/
def empty (directive : String) : UsageDefinition :=
  ⟨directive, []⟩

variable (u : UsageDefinition)

/-- Adds a slot at the end. A slot with a default is optional. -/
def define (name : String) (accepts : List TokenType) (optional : Bool) (default? : Option Token) :
    Except UsageError UsageDefinition :=
  if accepts.isEmpty then throw (.acceptsNothing name)
  else if u.slots.any (·.name == name) then throw (.duplicate name u.directive)
  else match default?.filter fun t => !accepts.contains t.type with
    | some t => throw (.wrongDefault name t.type accepts)
    | none =>
      let optional := optional || default?.isSome
      if !optional && (u.slots.getLast?.any (·.optional)) then
        throw (.requiredAfterOptional name u.directive)
      else pure { u with slots := u.slots ++ [{ name, accepts, optional, default? }] }

/-- How many slots need an argument. -/
def requiredCount : Nat :=
  u.slots.countP fun s => !s.optional

def slot? (name : String) : Option UsageSlot :=
  u.slots.find? (·.name == name)

/-- The usage line. -/
def text : String :=
  " ".intercalate (u.directive :: u.slots.map (·.text))

end UsageDefinition

end RowRecipe
