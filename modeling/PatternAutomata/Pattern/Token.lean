import PatternAutomata.Error

/-! The tokens of a pattern, with concatenations put where patterns stand side by side. -/

namespace PatternAutomata

/-- A meaningful part of a pattern. -/
inductive Token where
  /-- A character that stands for itself. -/
  | literal (c : Char)
  /-- An operator, written or implied. -/
  | operator (operator : Operator)
  /-- The beginning of a group. -/
  | opening
  /-- The end of a group. -/
  | closing
deriving DecidableEq

namespace Token

/-- The token that a character writes when it is not escaped and does not escape. -/
def ofChar : Char → Token
  | '(' => opening
  | ')' => closing
  | '|' => operator .union
  | '*' => operator .star
  | '+' => operator .plus
  -- A backslash never comes here, since it escapes what follows it.
  | c => literal c

/-- Something that can be repeated or continued ends with this token. -/
def endsOperand : Token → Bool
  -- A repetition can be repeated once more.
  | literal _ | closing | operator .star | operator .plus => true
  | opening | operator .concat | operator .union => false

/-- Something that can be repeated or continued begins with this token. -/
def beginsOperand : Token → Bool
  | literal _ | opening => true
  | closing | operator _ => false

end Token

/-- A token and the position in the pattern at which it is written. -/
structure PlacedToken where
  /-- The token. -/
  token : Token
  /-- The number of characters before it. -/
  position : Nat
deriving DecidableEq

namespace PlacedToken

/-- The tokens written from a position on, where a backslash protects the next character. -/
def written (position : Nat) : List Char → Except Error (List PlacedToken)
  | [] => .ok []
  | ['\\'] => .error (.malformed .danglingEscape position)
  -- An escaped character stands for itself, at the position of its backslash.
  | '\\' :: c :: rest => (written (position + 2) rest).map (⟨.literal c, position⟩ :: ·)
  | c :: rest => (written (position + 1) rest).map (⟨.ofChar c, position⟩ :: ·)

/-- Puts a concatenation wherever one operand follows another, at the position of the latter. -/
def joined : List PlacedToken → List PlacedToken
  | [] => []
  | [last] => [last]
  | left :: right :: rest =>
    -- Between two operands that no operator separates, a concatenation is implied.
    if left.token.endsOperand ∧ right.token.beginsOperand then
      left :: ⟨.operator .concat, right.position⟩ :: joined (right :: rest)
    else
      left :: joined (right :: rest)

/-- All tokens of a pattern, written and implied. -/
def ofPattern (pattern : List Char) : Except Error (List PlacedToken) :=
  -- The whole pattern is read before anything is joined, so a dangling escape is always found.
  (written 0 pattern).map joined

end PlacedToken

end PatternAutomata
