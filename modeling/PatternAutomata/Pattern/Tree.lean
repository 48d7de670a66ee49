import PatternAutomata.Builder

/-! Patterns as trees, the inputs that they describe, and automata built from the leaves up. -/

namespace PatternAutomata

/-- A pattern whose structure is plain. -/
inductive Tree where
  /-- One character. -/
  | literal (c : Char)
  /-- One pattern after another. -/
  | concat (left right : Tree)
  /-- Either of two patterns. -/
  | union (left right : Tree)
  /-- A pattern any number of times. -/
  | star (inner : Tree)
  /-- A pattern once or more often. -/
  | plus (inner : Tree)
deriving DecidableEq

namespace Tree

/-- The inputs that a pattern describes. -/
inductive Matches : Tree → List Char → Prop where
  /-- A character describes itself. -/
  | literal (c : Char) : Matches (.literal c) [c]
  /-- What follows each other in the pattern follows each other in the input. -/
  | concat {left right : Tree} {first second : List Char} (head : Matches left first)
      (tail : Matches right second) : Matches (.concat left right) (first ++ second)
  /-- The left side of a union may be taken. -/
  | unionLeft {left right : Tree} {input : List Char} (side : Matches left input) :
      Matches (.union left right) input
  /-- The right side of a union may be taken. -/
  | unionRight {left right : Tree} {input : List Char} (side : Matches right input) :
      Matches (.union left right) input
  /-- A starred pattern may be left out. -/
  | starNil {inner : Tree} : Matches (.star inner) []
  /-- A starred pattern may be taken once more. -/
  | starCons {inner : Tree} {first rest : List Char} (head : Matches inner first)
      (tail : Matches (.star inner) rest) : Matches (.star inner) (first ++ rest)
  /-- A repeated pattern is taken once and then any number of times. -/
  | plus {inner : Tree} {first rest : List Char} (head : Matches inner first)
      (tail : Matches (.star inner) rest) : Matches (.plus inner) (first ++ rest)

/-- The automaton of a tree, for which subtrees are built first and from left to right. -/
def build (builder : Builder) : Tree → Except Error (Graph × Builder)
  | literal c => builder.literal c
  | concat left right => do
    -- The left operand is built first, and so takes the smaller numbers.
    let (l, builder) ← build builder left
    let (r, builder) ← build builder right
    builder.concat l r
  | union left right => do
    let (l, builder) ← build builder left
    let (r, builder) ← build builder right
    builder.union l r
  | star inner => do
    let (g, builder) ← build builder inner
    builder.star g
  | plus inner => do
    let (g, builder) ← build builder inner
    builder.plus g

end Tree

end PatternAutomata
