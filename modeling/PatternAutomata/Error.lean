import PatternAutomata.Graph.Edge
import PatternAutomata.Pattern.Operator

/-! What can go wrong with patterns and graphs, and how it is reported. -/

namespace PatternAutomata

/-- What is wrong with a pattern. -/
inductive Fault where
  /-- The pattern has no characters. -/
  | emptyPattern
  /-- A group is opened and never closed. -/
  | unclosedGroup
  /-- A group is closed and was never opened. -/
  | unopenedGroup
  /-- An operator has too few patterns to work on. -/
  | missingOperand (operator : Operator)
  /-- A group is closed directly after its opening. -/
  | emptyGroup
  /-- The escape at the end of the pattern has no character to protect. -/
  | danglingEscape
  /-- The pattern leaves no single result. -/
  | malformedExpression
deriving DecidableEq

namespace Fault

/-- The fault in words. -/
def message : Fault → String
  | emptyPattern => "empty pattern"
  | unclosedGroup => "unclosed group"
  | unopenedGroup => "unopened group"
  | missingOperand operator =>
    -- A concatenation is not written, so there is no character to show.
    match operator.char? with
    | some c => s!"operator '{c}' is missing an operand"
    | none => "concatenation is missing an operand"
  | emptyGroup => "empty group"
  | danglingEscape => "dangling escape"
  | malformedExpression => "malformed regular expression"

end Fault

/-- The reason why an operation on patterns or graphs gives no result. -/
inductive Error where
  /-- The pattern has a fault at a position, counted in characters from zero. -/
  | malformed (fault : Fault) (position : Nat)
  /-- The graph has no such state. -/
  | unknownState (state : State)
  /-- Two graphs that were to be merged share this state. -/
  | stateCollision (state : State)
  /-- A graph that was to be combined with others has no start state. -/
  | missingStart
deriving DecidableEq

namespace Error

/-- The error in words. -/
def message : Error → String
  | malformed fault position =>
    s!"Malformed regular expression at position {position}: {fault.message}"
  | unknownState state => s!"Unknown state {state}"
  | stateCollision state => s!"State {state} is part of both merged graphs"
  | missingStart => "Automaton fragment without start state"

end Error

end PatternAutomata
