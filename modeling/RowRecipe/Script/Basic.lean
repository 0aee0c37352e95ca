import RowRecipe.Script.Lexeme

/-!
# Scripts

A script is the written form of a recipe: its statements in order, each made of lexemes. Grouping
lexemes into statements needs no choice, because the grammar has fixed their order already.
-/

namespace RowRecipe.Script

open Grammar

/-- A property as written. -/
structure Property where
  key : Lexeme
  value : Lexeme

/-- An argument as written. -/
inductive Argument
  | columns (first : Lexeme) (more : List Lexeme)
  | texts (first : Lexeme) (more : List Lexeme)
  | numbers (first : Lexeme) (more : List Lexeme)
  | quantity (kind : UnitKind) (literal : Lexeme)
  | malformed (literal : Lexeme)
  | word (word : Lexeme)
  | properties (opening : Lexeme) (entries : List Property) (closing : Lexeme)

/-- The last lexeme of an argument. -/
def Argument.last : Argument → Lexeme
  | columns first more | texts first more | numbers first more => more.getLastD first
  | quantity _ l | malformed l | word l => l
  | properties _ _ closing => closing

/-- A statement as written. -/
inductive Statement
  | version (number : Lexeme)
  | load (names : List Lexeme)
  | directive (name : Lexeme) (arguments : List Argument)

/-! ## Grouping -/

/-- The lexemes that commas join to what stands before, and the rest. -/
def joined : List Lexeme → List Lexeme × List Lexeme
  | comma :: l :: ls =>
    if comma.terminal = .comma then
      let r := joined ls
      (l :: r.1, r.2)
    else ([], comma :: l :: ls)
  | ls => ([], ls)

theorem joined_length (ls : List Lexeme) : (joined ls).2.length ≤ ls.length := by
  fun_induction joined ls with
  | case1 comma l ls _ r ih => exact Nat.le_succ_of_le (Nat.le_succ_of_le ih)
  | case2 => exact Nat.le_refl _
  | case3 => exact Nat.le_refl _

/-- The properties up to the closing brace, and the rest from there on. -/
def propertiesOf : List Lexeme → List Property × List Lexeme
  | [] => ([], [])
  | l :: ls =>
    if l.terminal = .closing then ([], l :: ls)
    else if l.terminal = .comma then propertiesOf ls
    else match ls with
      | _ :: value :: ls =>
        let r := propertiesOf ls
        (⟨l, value⟩ :: r.1, r.2)
      | _ => ([], l :: ls)

theorem propertiesOf_length (ls : List Lexeme) : (propertiesOf ls).2.length ≤ ls.length := by
  fun_induction propertiesOf ls with
  | case1 => exact Nat.le_refl _
  | case2 => exact Nat.le_refl _
  | case3 l ls _ _ ih => exact Nat.le_succ_of_le ih
  | case4 l _ _ e value ls r ih =>
    exact Nat.le_succ_of_le (Nat.le_succ_of_le (Nat.le_succ_of_le ih))
  | case5 => exact Nat.le_refl _

/-- The arguments of a directive. -/
def argumentsOf : List Lexeme → List Argument
  | [] => []
  | l :: ls =>
    match l.terminal with
    | .column => .columns l (joined ls).1 :: argumentsOf (joined ls).2
    | .text => .texts l (joined ls).1 :: argumentsOf (joined ls).2
    | .number => .numbers l (joined ls).1 :: argumentsOf (joined ls).2
    | .byteSize => .quantity .size l :: argumentsOf ls
    | .duration => .quantity .time l :: argumentsOf ls
    | .malformedUnit => .malformed l :: argumentsOf ls
    | .opening =>
      match _h : (propertiesOf ls).2 with
      | [] => []
      | closing :: rest => .properties l (propertiesOf ls).1 closing :: argumentsOf rest
    | _ => .word l :: argumentsOf ls
termination_by ls => ls.length
decreasing_by
  all_goals simp only [List.length_cons]
  case _ => have := joined_length ls; omega
  case _ => have := joined_length ls; omega
  case _ => have := joined_length ls; omega
  case _ => omega
  case _ => omega
  case _ => omega
  case _ =>
    have := propertiesOf_length ls
    rw [_h, List.length_cons] at this
    omega
  case _ => omega

/-- The statement that lexemes between two separators make up, if there are any. -/
def Statement.ofLexemes? : List Lexeme → Option Statement
  | [] => none
  | l :: ls =>
    if l.terminal = .pragmaWord then
      match ls.find? (·.terminal == .version) with
      | some number => some (.version number)
      | none => some (.load (ls.filter (·.terminal == .name)))
    else some (.directive l (argumentsOf ls))

end RowRecipe.Script

namespace RowRecipe

/-- The written form of a recipe. -/
structure Script where
  statements : List Script.Statement

end RowRecipe

namespace RowRecipe.Script

open Grammar

/-- Groups the lexemes of a recipe. -/
def ofLexemes (ls : List Lexeme) : Script :=
  ⟨(ls.splitOnP (·.terminal == .separator)).filterMap Statement.ofLexemes?⟩

end RowRecipe.Script
