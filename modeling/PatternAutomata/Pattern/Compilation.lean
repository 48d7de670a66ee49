import PatternAutomata.Builder
import PatternAutomata.Pattern.Reading

/-! Compiling a pattern, which reads it to a stack of finished automata. -/

namespace PatternAutomata

/-- The automata that wait to be combined, the latest first, and the builder that numbered them. -/
structure Operands where
  /-- The source of new states. -/
  builder : Builder := {}
  /-- The automata that no operator has taken yet. -/
  graphs : List Graph := []
deriving DecidableEq

namespace Operands

/-- Adds the automaton of a character. -/
def pushLiteral (operands : Operands) (c : Char) : Except Error Operands := do
  -- The builder moves on with every automaton, so that no two share states.
  let (g, builder) ← operands.builder.literal c
  return ⟨builder, g :: operands.graphs⟩

/-- Replaces the latest automata by their combination, or reports the operator that lacks one. -/
def apply (operands : Operands) (operator : Operator) (position : Nat) : Except Error Operands :=
  -- The latest automaton stands on the right, and groups do not limit which ones are taken.
  match operator, operands.graphs with
  | .star, inner :: rest => do
    let (g, builder) ← operands.builder.star inner
    return ⟨builder, g :: rest⟩
  | .plus, inner :: rest => do
    let (g, builder) ← operands.builder.plus inner
    return ⟨builder, g :: rest⟩
  | .concat, right :: left :: rest => do
    let (g, builder) ← operands.builder.concat left right
    return ⟨builder, g :: rest⟩
  | .union, right :: left :: rest => do
    let (g, builder) ← operands.builder.union left right
    return ⟨builder, g :: rest⟩
  | operator, _ => .error (.malformed (.missingOperand operator) position)

/-- Patterns can be read to automata. -/
instance : OperandStack Operands := ⟨pushLiteral, apply⟩

end Operands

/-- The automaton that accepts exactly the inputs that a pattern describes. -/
def compile (pattern : String) : Except Error Graph := do
  let operands ← Reading.ofPattern ({} : Operands) pattern.toList
  -- A pattern leaves one automaton if it leaves any.
  sole pattern.toList.length operands.graphs

end PatternAutomata
