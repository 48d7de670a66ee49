/-! The operators of patterns, written or implied, and how tightly they bind. -/

namespace PatternAutomata

/-- An operator that builds a larger pattern from one or two smaller ones. -/
inductive Operator where
  /-- Either of two patterns. -/
  | union
  /-- One pattern after another. -/
  | concat
  /-- A pattern once or more often. -/
  | plus
  /-- A pattern any number of times. -/
  | star
deriving DecidableEq

namespace Operator

/-- A repetition binds tighter than a concatenation, and that tighter than a union. -/
def precedence : Operator → Nat
  | union => 1
  | concat => 2
  -- Both repetitions stand behind their operand, so neither has to bind tighter than the other.
  | plus => 3
  | star => 3

/-- The character that writes the operator, since a concatenation is written by adjacency. -/
def char? : Operator → Option Char
  | union => some '|'
  -- Operands that follow each other need no sign between them.
  | concat => none
  | plus => some '+'
  | star => some '*'

end Operator

end PatternAutomata
