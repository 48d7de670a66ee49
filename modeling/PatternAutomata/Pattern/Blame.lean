import PatternAutomata.Pattern.Nesting
import PatternAutomata.Pattern.Token

/-! Which operators of a pattern lack an operand, and which of them are to blame for others. -/

namespace PatternAutomata

/-- No operand can end in front of a token, since there is nothing, a group begins or a bar. -/
def LacksLeft (first : List PlacedToken) : Prop :=
  -- At the beginning there is no last token, and so no operand.
  ∀ last ∈ first.getLast?, last.token = .opening ∨ last.token = .operator .union

/-- No operand can begin behind a token. -/
def LacksRight (second : List PlacedToken) : Prop :=
  -- At the end there is no next token, and so no operand.
  ∀ next ∈ second.head?, next.token.beginsOperand = false

/-- An operator lacks an operand between the tokens in front of it and those behind it. -/
def Operator.Lacks (first second : List PlacedToken) : Operator → Prop
  | star | plus => LacksLeft first
  | union => LacksLeft first ∨ LacksRight second
  -- A concatenation that is implied stands between two tokens, so its left operand ends there.
  | concat => (∀ last ∈ first.getLast?, last.token.endsOperand = false) ∨ LacksRight second

/-- An operator that was read at a position is one of some tokens, and lacks an operand there. -/
def LacksOperand (tokens : List PlacedToken) (operator : Operator) (position : Nat) : Prop :=
  -- The same operator may be read at many places, but only once at one position.
  ∃ i < tokens.length, tokens[i]? = some ⟨.operator operator, position⟩ ∧
    operator.Lacks (tokens.take i) (tokens.drop (i + 1))

/--
An operator lacks an operand, or one in a group behind it does.

An operator in a group may have been given an operand that belongs to one in front of the group.
-/
def Blamed (text : List Char) (tokens : List PlacedToken) (operator : Operator)
    (position : Nat) : Prop :=
  LacksOperand tokens operator position ∨
    -- An operator outside of a group is blamed for one inside that took its operand.
    (operator = .concat ∨ operator = .union) ∧ ∃ other place opened,
      LacksOperand tokens other place ∧ position ≤ opened ∧ Inside text opened place

/-- Whether an operator lacks an operand is seen from the tokens next to it. -/
instance (first second : List PlacedToken) :
    (operator : Operator) → Decidable (operator.Lacks first second)
  | .star => inferInstanceAs (Decidable (∀ last ∈ first.getLast?, _ ∨ _))
  | .plus => inferInstanceAs (Decidable (∀ last ∈ first.getLast?, _ ∨ _))
  | .union => inferInstanceAs
    (Decidable ((∀ last ∈ first.getLast?, _ ∨ _) ∨ ∀ next ∈ second.head?, _ = _))
  | .concat => inferInstanceAs
    (Decidable ((∀ last ∈ first.getLast?, _ = _) ∨ ∀ next ∈ second.head?, _ = _))

/-- Whether one of some tokens lacks an operand is found by looking at each of them. -/
instance (tokens : List PlacedToken) (operator : Operator) (position : Nat) :
    Decidable (LacksOperand tokens operator position) :=
  inferInstanceAs (Decidable (∃ i < tokens.length, _ ∧ _))

end PatternAutomata
