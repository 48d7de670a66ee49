import PatternAutomata.Pattern.Compilation

/-! Compiling with one stack on which any token may wait, so that any token might be applied. -/

namespace PatternAutomata

/-- How tightly a token binds, which operators alone do. -/
def Token.precedence : Token → Nat
  | operator op => op.precedence
  -- These never wait in front of an operator, apart from a group that stops it.
  | literal _ | opening | closing => 0

/-- What has become of the tokens read so far. -/
structure Stacked (σ : Type) where
  /-- The finished operands. -/
  operands : σ
  /-- The tokens that have neither been applied nor dropped, the latest first. -/
  waiting : List PlacedToken := []
deriving DecidableEq

namespace Stacked

variable {σ : Type} [OperandStack σ]

/-- Applies a token to the latest operands, which makes sense for operators only. -/
def apply (operands : σ) (placed : PlacedToken) : Except Error σ :=
  match placed.token with
  | .operator operator => OperandStack.apply operands operator placed.position
  -- These tokens never come to be applied, but nothing in their type says so.
  | .literal _ | .opening | .closing => .error (.malformed .malformedExpression placed.position)

/-- Applies what waits in the innermost group, and closes it. -/
def closeGroup (position : Nat) : List PlacedToken → σ → Except Error (Stacked σ)
  | [], _ => .error (.malformed .unopenedGroup position)
  | top :: rest, operands =>
    if top.token = .opening then
      -- Neighbouring positions leave no room for anything inside.
      if top.position + 1 = position then
        .error (.malformed .emptyGroup top.position)
      else
        .ok ⟨operands, rest⟩
    else do
      closeGroup position rest (← apply operands top)

/-- Applies what waits in the innermost group and binds as tightly as a new operator. -/
def applyTighter (operator : Operator) : List PlacedToken → σ → Except Error (Stacked σ)
  | [], operands => .ok ⟨operands, []⟩
  | top :: rest, operands =>
    -- An open group is a wall, as nothing outside of it is applied inside.
    if top.token = .opening ∨ top.token.precedence < operator.precedence then
      .ok ⟨operands, top :: rest⟩
    else do
      applyTighter operator rest (← apply operands top)

/-- Takes in one more token. -/
def step (state : Stacked σ) (placed : PlacedToken) : Except Error (Stacked σ) :=
  match placed.token with
  | .literal c => do
    return { state with operands := ← OperandStack.pushLiteral state.operands c }
  | .opening => .ok { state with waiting := placed :: state.waiting }
  -- Everything that waits inside of the group is settled first.
  | .closing => closeGroup placed.position state.waiting state.operands
  | .operator operator => do
    let ⟨operands, waiting⟩ ← applyTighter operator state.waiting state.operands
    return ⟨operands, placed :: waiting⟩

/-- Applies all that waits at the end of a pattern, where no group may be open. -/
def finish : List PlacedToken → σ → Except Error σ
  | [], operands => .ok operands
  | top :: rest, operands =>
    -- The group that was opened last is the one that is reported.
    if top.token = .opening then
      .error (.malformed .unclosedGroup top.position)
    else do
      finish rest (← apply operands top)

/-- The operands that a whole pattern leaves, which begins with some operands of its own. -/
def ofPattern (initial : σ) : List Char → Except Error σ
  -- The empty pattern is refused before there is any token to look at.
  | [] => .error (.malformed .emptyPattern 0)
  | characters => do
    let tokens ← PlacedToken.ofPattern characters
    let state ← tokens.foldlM step ⟨initial, []⟩
    finish state.waiting state.operands

/-- The automaton of a pattern, or what is wrong with the pattern or with the stack. -/
def compile (pattern : String) : Except Error Graph := do
  let operands ← ofPattern ({} : Operands) pattern.toList
  sole pattern.toList.length operands.graphs

end Stacked

end PatternAutomata
