import PatternAutomata.Pattern.Token

/-! Reading a pattern with a stack of operands, of whatever kind, and a stack of what waits. -/

namespace PatternAutomata

/-- Something that has been read and waits for what follows it. -/
inductive Pending where
  /-- A group that was opened at a position. -/
  | group (position : Nat)
  /-- An operator that was read at a position. -/
  | operator (operator : Operator) (position : Nat)
deriving DecidableEq

/-- A stack of operands of some kind, on which the parts of a pattern are put together. -/
class OperandStack (σ : Type) where
  /-- Adds the operand of a character. -/
  pushLiteral : σ → Char → Except Error σ
  /-- Replaces the latest operands by their combination, or reports the operator that lacks one. -/
  apply : σ → Operator → Nat → Except Error σ

/-- What has become of the tokens read so far. -/
structure Reading (σ : Type) where
  /-- The finished operands. -/
  operands : σ
  /-- The open groups and the operators that have not been applied, the latest first. -/
  pending : List Pending := []
deriving DecidableEq

namespace Reading

variable {σ : Type} [OperandStack σ]

/-- Applies the operators that wait in the innermost group, and closes it. -/
def closeGroup (position : Nat) : List Pending → σ → Except Error (Reading σ)
  | [], _ => .error (.malformed .unopenedGroup position)
  | .group opened :: rest, operands =>
    -- Neighbouring positions leave no room for anything inside.
    if opened + 1 = position then
      .error (.malformed .emptyGroup opened)
    else
      .ok ⟨operands, rest⟩
  | .operator waiting place :: rest, operands => do
    closeGroup position rest (← OperandStack.apply operands waiting place)

/-- Applies the operators that wait in the innermost group and bind as tightly as a new one. -/
def applyTighter (operator : Operator) : List Pending → σ → Except Error (Reading σ)
  | .operator waiting place :: rest, operands =>
    -- Among operators of one precedence the earlier is applied first.
    if waiting.precedence < operator.precedence then
      .ok ⟨operands, .operator waiting place :: rest⟩
    else do
      applyTighter operator rest (← OperandStack.apply operands waiting place)
  | pending, operands => .ok ⟨operands, pending⟩

/-- Takes in one more token. -/
def step (state : Reading σ) (placed : PlacedToken) : Except Error (Reading σ) :=
  -- Operands are combined as soon as their operator can no longer be outbid by what follows.
  match placed.token with
  | .literal c => do
    return { state with operands := ← OperandStack.pushLiteral state.operands c }
  | .opening => .ok { state with pending := .group placed.position :: state.pending }
  | .closing => closeGroup placed.position state.pending state.operands
  | .operator operator => do
    let ⟨operands, pending⟩ ← applyTighter operator state.pending state.operands
    return ⟨operands, .operator operator placed.position :: pending⟩

/-- Applies all waiting operators at the end of a pattern, where no group may be open. -/
def finish : List Pending → σ → Except Error σ
  | [], operands => .ok operands
  -- What waits inside of the group has been applied by then.
  | .group opened :: _, _ => .error (.malformed .unclosedGroup opened)
  | .operator waiting place :: rest, operands => do
    finish rest (← OperandStack.apply operands waiting place)

/-- The operands that a whole pattern leaves, which begins with some operands of its own. -/
def ofPattern (initial : σ) : List Char → Except Error σ
  | [] => .error (.malformed .emptyPattern 0)
  | characters => do
    -- Tokens are taken in from left to right, and the rest is settled at the end.
    let tokens ← PlacedToken.ofPattern characters
    let state ← tokens.foldlM step ⟨initial, []⟩
    finish state.pending state.operands

end Reading

/-- The only element of a list, which is what a pattern of some length must leave. -/
def sole {α : Type} (length : Nat) : List α → Except Error α
  | [a] => .ok a
  -- This never happens, but the machine does not know that.
  | _ => .error (.malformed .malformedExpression length)

/-- A list has a sole element exactly if it has this element and no other. -/
theorem sole_eq_ok_iff {α : Type} {length : Nat} {list : List α} {a : α} :
    sole length list = .ok a ↔ list = [a] := by
  -- Only the pattern with one element gives something.
  unfold sole
  split <;> simp_all

end PatternAutomata
