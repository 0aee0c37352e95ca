import RowRecipe.Usage.Basic

/-!
# Binding of arguments

The arguments of a statement are bound to the slots of a usage by position. Binding looks at the variants
of the tokens only. The first slot that is missing or mismatched is reported, and else surplus arguments.
-/

namespace RowRecipe

/-- How the arguments of a statement fail a usage. -/
inductive BindFault
  | missing (slot : UsageSlot)
  | mismatch (slot : UsageSlot) (found : Token)
  | surplus (limit given : Nat) (first : Token)

/-- Arguments that do not fit a usage, with the name and the line of the statement. -/
structure BindError where
  fault : BindFault
  directive : String
  line : Int
  usage : UsageDefinition

namespace BindError

variable (e : BindError)

def message : String :=
  match e.fault with
  | .missing slot =>
    s!"Directive '{e.directive}' is missing required argument '{slot.name}' " ++
      s!"({slot.alternatives}); usage: {e.usage.text}"
  | .mismatch slot found =>
    s!"Directive '{e.directive}' argument '{slot.name}' expects {slot.alternatives} " ++
      s!"but found {found.type.name} '{found.literal}'; usage: {e.usage.text}"
  | .surplus limit given first =>
    s!"Directive '{e.directive}' accepts at most {limit} argument(s) but " ++
      s!"{given} were given (unexpected '{first.literal}'); usage: {e.usage.text}"

/-- The slot in question. -/
def slot? : Option String :=
  match e.fault with
  | .missing slot | .mismatch slot _ => some slot.name
  | .surplus .. => none

def expected : String :=
  match e.fault with
  | .missing slot | .mismatch slot _ => slot.alternatives
  | .surplus limit _ _ => toString limit

def actual? : Option String :=
  match e.fault with
  | .missing _ => none
  | .mismatch _ found => some found.type.name
  | .surplus _ given _ => some (toString given)

end BindError

/-- The tokens bound to the slots of a directive. -/
structure Arguments where
  directive : String
  tokens : Mapping Token

namespace Arguments

variable (a : Arguments)

def token? (name : String) : Option Token :=
  a.tokens.get? name

/-- Why there is no token of a name. -/
def notBound (name : String) : String :=
  s!"Argument '{name}' was not bound for '{a.directive}'"

/-- The value bound to a slot, or else null. -/
def value (name : String) : Value :=
  match a.token? name with
  | some t => t.value
  | none => .null

/-- The text bound to a slot. -/
def text (name : String) : String :=
  (a.value name).plain

/-- The summaries of the bound tokens. -/
def summary : Except NumberError (List (String × Value)) :=
  a.tokens.mapM fun e => return (e.1, .map (← e.2.summary))

end Arguments

/-- Pairs slots with arguments. Slots without an argument get their default, if they have one. -/
def bindSlots : List UsageSlot → List Token → Except BindFault (List (String × Token))
  | [], _ => pure []
  | s :: ss, [] => do
    if !s.optional then throw (.missing s)
    let rest ← bindSlots ss []
    return (s.default?.map (s.name, ·)).toList ++ rest
  | s :: ss, t :: ts => do
    if !s.acceptsToken t then throw (.mismatch s t)
    return (s.name, t) :: (← bindSlots ss ts)

/-- Binds the arguments of a statement to the slots of a usage. -/
def TokenGroup.bind (g : TokenGroup) (usage : UsageDefinition) : Except BindError Arguments :=
  let refuse (fault : BindFault) : BindError := ⟨fault, g.name, g.line, usage⟩
  match bindSlots usage.slots g.arguments with
  | .error fault => throw (refuse fault)
  | .ok bound =>
    match g.arguments.drop usage.slots.length with
    | first :: _ => throw (refuse (.surplus usage.slots.length g.arguments.length first))
    | [] => pure ⟨g.name, Mapping.ofEntries bound⟩

end RowRecipe
