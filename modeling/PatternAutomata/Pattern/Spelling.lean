import PatternAutomata.Pattern.Nesting
import PatternAutomata.Pattern.Token

/-! Tokens that are found in a single pass over a pattern, and the text that tokens stand for. -/

namespace PatternAutomata

/-- A concatenation is implied between two tokens that are written next to each other. -/
def Token.Joins (left right : Token) : Prop :=
  -- An operand ends on the left, and another one begins on the right.
  ((∃ c, left = literal c) ∨ left = closing ∨ left = operator .star ∨ left = operator .plus) ∧
    ((∃ c, right = literal c) ∨ right = opening)

namespace PlacedToken

/-- A token is written in the pattern, unless it is a concatenation. -/
def IsWritten (placed : PlacedToken) : Prop := placed.token ≠ .operator .concat

/-- Whether a token is written is seen from its kind. -/
instance (placed : PlacedToken) : Decidable placed.IsWritten :=
  inferInstanceAs (Decidable (_ ≠ _))

/-- Puts a token behind others, and a concatenation between the last one and it if need be. -/
def push (tokens : List PlacedToken) (placed : PlacedToken) : List PlacedToken :=
  match tokens.getLast? with
  | none => tokens ++ [placed]
  | some last =>
    -- The last token might itself be a concatenation that has just been put there.
    if last.token.endsOperand ∧ placed.token.beginsOperand then
      tokens ++ [⟨.operator .concat, placed.position⟩] ++ [placed]
    else
      tokens ++ [placed]

/-- Puts the tokens of a text that begins at some position behind those that have been found. -/
def scan (tokens : List PlacedToken) (position : Nat) :
    List Char → Except Error (List PlacedToken)
  | [] => .ok tokens
  -- A backslash at the end has nothing to escape.
  | ['\\'] => .error (.malformed .danglingEscape position)
  | '\\' :: c :: rest => scan (push tokens ⟨.literal c, position⟩) (position + 2) rest
  | c :: rest => scan (push tokens ⟨.ofChar c, position⟩) (position + 1) rest

/-- The text of a token, in which a literal is escaped if the pattern has a backslash there. -/
def spelling (pattern : List Char) (placed : PlacedToken) : List Char :=
  match placed.token with
  -- The same character may be written with or without a backslash.
  | .literal c => if pattern[placed.position]? = some '\\' then ['\\', c] else [c]
  | .operator operator => operator.char?.toList
  | .opening => ['(']
  | .closing => [')']

end PlacedToken

end PatternAutomata
