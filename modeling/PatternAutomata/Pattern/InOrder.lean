import PatternAutomata.Builder.History
import PatternAutomata.Pattern.Nesting
import PatternAutomata.Pattern.Stacked

/-! Stacks that are in order while a pattern is read, and a record of what has been applied. -/

namespace PatternAutomata

/-- A token is a character that stands for itself. -/
def Token.isLiteral : Token → Bool
  | literal _ => true
  | operator _ | opening | closing => false

/-- A stack of operands, and a record of what has been applied to them. -/
structure Logged (σ : Type) where
  /-- The stack itself. -/
  stack : σ
  /-- The operators that have been applied, the latest first. -/
  applied : List Operator := []
deriving DecidableEq

namespace Logged

variable {σ : Type} [OperandStack σ]

/-- Adds the operand of a character, for which nothing is applied. -/
def pushLiteral (logged : Logged σ) (c : Char) : Except Error (Logged σ) := do
  return { logged with stack := ← OperandStack.pushLiteral logged.stack c }

/-- Applies an operator, and records it once it has found its operands. -/
def apply (logged : Logged σ) (operator : Operator) (position : Nat) : Except Error (Logged σ) := do
  -- Nothing is recorded if an operand is missing.
  return ⟨← OperandStack.apply logged.stack operator position, operator :: logged.applied⟩

/-- Patterns can be read to operands of any kind while a record is kept. -/
instance : OperandStack (Logged σ) := ⟨pushLiteral, apply⟩

end Logged

namespace Stacked

/-- The positions of the groups that wait, the latest first. -/
def groups (waiting : List PlacedToken) : List Nat :=
  -- Operators that wait are passed over.
  (waiting.filter (·.token = .opening)).map (·.position)

/-- Both stacks are in order when some tokens of a pattern have been read. -/
structure InOrder (pattern : List Char) (read : List PlacedToken)
    (x : Stacked (Logged Operands)) : Prop where
  /-- Nothing but groups and operators waits. -/
  kinds : ∀ placed ∈ x.waiting,
    placed.token = .opening ∨ ∃ operator, placed.token = .operator operator
  /-- Of operators with no group between them, those that wait above bind tighter. -/
  rises : ∀ run, run <:+: x.waiting → (∀ placed ∈ run, placed.token ≠ .opening) →
    run.Pairwise fun upper lower => lower.token.precedence < upper.token.precedence
  /-- The groups that wait have been opened, and none of them has been closed. -/
  mem_groups : ∀ position, position ∈ groups x.waiting ↔ ⟨.opening, position⟩ ∈ read ∧
    ∀ closed, Matched pattern position closed → ⟨.closing, closed⟩ ∉ read
  /-- A group that waits above another one was opened behind it. -/
  ordered : (groups x.waiting).Pairwise (· > ·)
  /-- Every automaton has a start, which is one of its states. -/
  begins : ∀ g ∈ x.operands.stack.graphs, ∃ state ∈ g.states, g.start = some state
  /-- No two automata share a state. -/
  apart : x.operands.stack.graphs.Pairwise Builder.Apart
  /-- All numbers that the builder has given out are states of automata, and no others are. -/
  mem_states : ∀ state,
    (∃ g ∈ x.operands.stack.graphs, state ∈ g.states) ↔ state < x.operands.stack.builder.next
  /-- Each character has become an automaton, and each of these operators has made two into one. -/
  length_eq : x.operands.stack.graphs.length +
    (x.operands.applied.count .concat + x.operands.applied.count .union) =
      read.countP (·.token.isLiteral)

end Stacked

end PatternAutomata
