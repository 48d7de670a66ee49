import PatternAutomata.Pattern.Grammar
import PatternAutomata.Pattern.Nesting
import PatternAutomata.Pattern.Operator

/-! How many literals and operators a pattern and its tree have, and what they come to. -/

namespace PatternAutomata

/-- Whether a character is plain is found by comparing it with those that are not. -/
instance (c : Char) : Decidable (IsPlain c) :=
  inferInstanceAs (Decidable (_ ∉ _))

/-- The number of places of a text at which a character stands that no backslash protects. -/
def unescapedCount (text : List Char) (c : Char) : Nat :=
  -- Positions are counted and not characters, since the same character may be escaped elsewhere.
  (List.range text.length).countP (Unescaped text · c)

/-- A character stands at a position for itself, since a backslash protects it or it is plain. -/
def LiteralAt (text : List Char) (position : Nat) : Prop :=
  -- The backslash in front of an escaped character is neither escaped nor plain.
  ∃ c ∈ text[position]?, Dangles (text.take position) ∨ IsPlain c

/-- Whether a character stands for itself is found by looking at it and in front of it. -/
instance (text : List Char) (position : Nat) : Decidable (LiteralAt text position) :=
  Option.decidableExistsMem text[position]?

/-- The number of characters of a text that stand for themselves. -/
def literalCount (text : List Char) : Nat :=
  (List.range text.length).countP (LiteralAt text ·)

namespace Tree

/-- The characters at the leaves of a tree, from left to right. -/
def literals : Tree → List Char
  | literal c => [c]
  -- Operators have no characters of their own among these.
  | concat left right => left.literals ++ right.literals
  | union left right => left.literals ++ right.literals
  | star inner => inner.literals
  | plus inner => inner.literals

/-- The operators of a tree, each in front of those of its subtrees. -/
def operators : Tree → List Operator
  -- An operator stands in front of those of its operands, which makes no difference to counts.
  | literal _ => []
  | concat left right => .concat :: (left.operators ++ right.operators)
  | union left right => .union :: (left.operators ++ right.operators)
  | star inner => .star :: inner.operators
  | plus inner => .plus :: inner.operators

/-- The number of states of the automaton of a tree, where parts that are linked get no new ones. -/
def stateCount : Tree → Nat
  | literal _ => 2
  -- A concatenation joins two automata by silent edges alone.
  | concat left right => left.stateCount + right.stateCount
  | union left right => left.stateCount + right.stateCount + 2
  | star inner => inner.stateCount + 2
  | plus inner => inner.stateCount + 2

/-- The number of edges of the automaton of a tree. -/
def edgeCount : Tree → Nat
  | literal _ => 1
  | concat left right => left.edgeCount + right.edgeCount + 1
  -- Two edges lead into the branches and two lead out of them.
  | union left right => left.edgeCount + right.edgeCount + 4
  | star inner => inner.edgeCount + 4
  | plus inner => inner.edgeCount + 3

end Tree

end PatternAutomata
