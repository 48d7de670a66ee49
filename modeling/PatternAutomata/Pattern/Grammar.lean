import PatternAutomata.Pattern.Tree

/-! The grammar of patterns, which says what text stands for what tree. -/

namespace PatternAutomata

/-- How tightly the parts of a text hang together. -/
inductive Level where
  /-- A whole pattern, which may be a union. -/
  | pattern
  /-- One side of a union, which may be a concatenation. -/
  | branch
  /-- One part of a concatenation, which may be repeated. -/
  | piece
  /-- A single character or a group. -/
  | atom
deriving DecidableEq

/-- A character that stands for itself, since it neither groups nor operates nor escapes. -/
def IsPlain (c : Char) : Prop := c ∉ ['(', ')', '|', '*', '+', '\\']

/-- A text of a level is written for a tree. -/
inductive Derives : Level → List Char → Tree → Prop where
  /-- A plain character stands for itself. -/
  | plain {c : Char} (plain : IsPlain c) : Derives .atom [c] (.literal c)
  /-- Any character stands for itself behind a backslash. -/
  | escaped (c : Char) : Derives .atom ['\\', c] (.literal c)
  /-- A group stands for what it encloses. -/
  | group {text : List Char} {tree : Tree} (inner : Derives .pattern text tree) :
      Derives .atom ('(' :: text ++ [')']) tree
  /-- An atom need not be repeated. -/
  | piece {text : List Char} {tree : Tree} (atom : Derives .atom text tree) :
      Derives .piece text tree
  /-- A piece may be repeated any number of times. -/
  | star {text : List Char} {tree : Tree} (inner : Derives .piece text tree) :
      Derives .piece (text ++ ['*']) (.star tree)
  /-- A piece may be repeated once or more often. -/
  | plus {text : List Char} {tree : Tree} (inner : Derives .piece text tree) :
      Derives .piece (text ++ ['+']) (.plus tree)
  /-- A single piece is a branch. -/
  | branch {text : List Char} {tree : Tree} (piece : Derives .piece text tree) :
      Derives .branch text tree
  /-- A branch may be continued by a piece, so concatenations lean to the left. -/
  | concat {first second : List Char} {left right : Tree} (head : Derives .branch first left)
      (tail : Derives .piece second right) : Derives .branch (first ++ second) (.concat left right)
  /-- A single branch is a pattern. -/
  | pattern {text : List Char} {tree : Tree} (branch : Derives .branch text tree) :
      Derives .pattern text tree
  /-- A pattern may have one more branch, so unions lean to the left. -/
  | union {first second : List Char} {left right : Tree} (head : Derives .pattern first left)
      (tail : Derives .branch second right) :
      Derives .pattern (first ++ '|' :: second) (.union left right)

end PatternAutomata
