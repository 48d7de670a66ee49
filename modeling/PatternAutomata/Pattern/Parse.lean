import PatternAutomata.Pattern.Reading
import PatternAutomata.Pattern.Tree

/-! Parsing a pattern, which reads it to a stack of finished trees. -/

namespace PatternAutomata

namespace Tree

/-- Replaces the latest trees by their combination, or reports the operator that lacks one. -/
def applyLatest (trees : List Tree) (operator : Operator) (position : Nat) :
    Except Error (List Tree) :=
  -- The latest tree stands on the right.
  match operator, trees with
  | .star, inner :: rest => .ok (star inner :: rest)
  | .plus, inner :: rest => .ok (plus inner :: rest)
  | .concat, right :: left :: rest => .ok (concat left right :: rest)
  | .union, right :: left :: rest => .ok (union left right :: rest)
  | operator, _ => .error (.malformed (.missingOperand operator) position)

/-- Patterns can be read to trees. -/
instance : OperandStack (List Tree) := ⟨fun trees c => .ok (literal c :: trees), applyLatest⟩

/-- The tree of a pattern. -/
def parse (pattern : String) : Except Error Tree := do
  -- This is the machine that compiles, with trees in the place of automata.
  let trees ← Reading.ofPattern ([] : List Tree) pattern.toList
  sole pattern.toList.length trees

end Tree

end PatternAutomata
