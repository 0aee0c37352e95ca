import RowRecipe.Script.Basic
import RowRecipe.Text.Quoted

/-!
# Trees

The view of a script as a tree of grammar rules over lexemes. Punctuation and the fixed words of pragmas
are left out.
-/

namespace RowRecipe.Script

/-- A rule with its parts, or a lexeme. -/
inductive Tree
  | leaf (l : Lexeme)
  | node (rule : String) (children : List Tree)

namespace Property

def tree (p : Property) : Tree :=
  .node "property" [.leaf p.key, .node "property_value" [.leaf p.value]]

end Property

namespace Argument

/-- A single item, or a list of items under a rule of its own. -/
def itemsTree (single several : String) (first : Lexeme) (more : List Lexeme) : Tree :=
  .node (if more.isEmpty then single else several) ((first :: more).map .leaf)

def tree : Argument → Tree
  | columns first more => itemsTree "column" "column_list" first more
  | texts first more => itemsTree "text" "text_list" first more
  | numbers first more => itemsTree "number" "numeric_list" first more
  | quantity .size l => .node "byte_size" [.leaf l]
  | quantity .time l => .node "time_duration" [.leaf l]
  | malformed l => .node "malformed_unit" [.leaf l]
  | word l => .node "word" [.leaf l]
  | properties opening entries _ => .node "properties" (.leaf opening :: entries.map Property.tree)

end Argument

namespace Statement

def tree : Statement → Tree
  | version number => .node "pragma_version" [.leaf number]
  | load names => .node "pragma_load" (names.map .leaf)
  | directive name arguments => .node "directive" (.leaf name :: arguments.map Argument.tree)

end Statement

/-- The tree of a script. -/
def tree (s : Script) : Tree :=
  .node "start" (s.statements.map Statement.tree)

namespace Tree

mutual

/-- The lines of a tree; every level is indented by two blanks. -/
def linesAt (level : Nat) : Tree → List String
  | leaf l => ["".pushn ' ' (2 * level) ++ s!"{l.terminal.symbol}: {Text.quoted l.text}"]
  | node rule children => ("".pushn ' ' (2 * level) ++ rule) :: linesOfAll (level + 1) children

/-- The lines of several trees. -/
def linesOfAll (level : Nat) : List Tree → List String
  | [] => []
  | t :: ts => linesAt level t ++ linesOfAll level ts

end

/-- The tree as indented text. -/
def text (t : Tree) : String :=
  "\n".intercalate (t.linesAt 0)

end Tree

end RowRecipe.Script
