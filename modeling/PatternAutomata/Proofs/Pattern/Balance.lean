import PatternAutomata.Pattern.Parse
import PatternAutomata.Proofs.Outcome

/-! How many operands, waiting operators and open groups there are while a pattern is read. -/

namespace PatternAutomata

open Outcome

namespace Operator

/-- How many operands fewer there are once an operator has been applied. -/
def merges : Operator → Nat
  | union | concat => 1
  -- A repetition puts one operand back for the one that it takes.
  | plus | star => 0

end Operator

namespace Pending

/-- How many operands fewer there are once all waiting operators have been applied. -/
def debt : List Pending → Nat
  | [] => 0
  -- A group owes what the operators inside and outside of it owe.
  | .group _ :: rest => debt rest
  | .operator waiting _ :: rest => waiting.merges + debt rest

/-- How many groups are open. -/
def depth : List Pending → Nat
  | [] => 0
  | .group _ :: rest => depth rest + 1
  | .operator _ _ :: rest => depth rest

end Pending

namespace Token

/-- How many operands a token adds. -/
def gain : Token → Nat
  | literal _ => 1
  | _ => 0

/-- How many operands a token will take away. -/
def loss : Token → Nat
  -- This happens later, when the operator is applied.
  | operator written => written.merges
  | _ => 0

/-- How many groups a token opens. -/
def opens : Token → Nat
  | opening => 1
  | _ => 0

/-- How many groups a token closes. -/
def closes : Token → Nat
  | closing => 1
  | _ => 0

end Token

/-- Applying an operator takes away as many trees as it merges. -/
theorem Tree.length_of_applyLatest {trees combined : List Tree} {operator : Operator}
    {position : Nat} (applied : applyLatest trees operator position = .ok combined) :
    combined.length + operator.merges = trees.length := by
  -- Only operators that find their operands are applied.
  unfold applyLatest at applied
  split at applied <;> cases applied <;> rfl

namespace Reading

open Pending

variable {pending : List Pending} {trees settled : List Tree} {x y : Reading (List Tree)}

/-- Applying what waits for the end of a group pays its debt, and the group is no longer open. -/
theorem balance_closeGroup {position : Nat} (closed : closeGroup position pending trees = .ok y) :
    y.operands.length + debt pending = trees.length + debt y.pending ∧
      depth pending = depth y.pending + 1 := by
  induction pending generalizing trees with
  | nil => cases closed
  | cons top rest ih =>
    cases top with
    | group opened =>
      -- This is the group that is closed, unless it is empty.
      unfold closeGroup at closed
      split at closed
      · cases closed
      · cases closed
        exact ⟨rfl, rfl⟩
    | operator waiting place =>
      -- What the operator takes from the trees, it takes from the debt as well.
      obtain ⟨combined, applied, closed⟩ := bind_eq_ok.mp closed
      have merged := Tree.length_of_applyLatest applied
      obtain ⟨paid, shallower⟩ := ih closed
      refine ⟨?_, shallower⟩
      show y.operands.length + (waiting.merges + debt rest) = trees.length + debt y.pending
      omega

/-- Applying what waits for a looser operator pays its debt, and no group is closed. -/
theorem balance_applyTighter {operator : Operator}
    (tightened : applyTighter operator pending trees = .ok y) :
    y.operands.length + debt pending = trees.length + debt y.pending ∧
      depth y.pending = depth pending := by
  induction pending generalizing trees with
  | nil =>
    cases tightened
    exact ⟨rfl, rfl⟩
  | cons top rest ih =>
    cases top with
    | group opened =>
      cases tightened
      exact ⟨rfl, rfl⟩
    | operator waiting place =>
      unfold applyTighter at tightened
      split at tightened
      · -- A looser operator goes on waiting.
        cases tightened
        exact ⟨rfl, rfl⟩
      · obtain ⟨combined, applied, tightened⟩ := bind_eq_ok.mp tightened
        have merged := Tree.length_of_applyLatest applied
        obtain ⟨paid, level⟩ := ih tightened
        refine ⟨?_, level⟩
        show y.operands.length + (waiting.merges + debt rest) = trees.length + debt y.pending
        omega

/-- At the end all debt is paid, and no group is open. -/
theorem balance_finish (finished : finish pending trees = .ok settled) :
    settled.length + debt pending = trees.length ∧ depth pending = 0 := by
  induction pending generalizing trees with
  | nil =>
    cases finished
    exact ⟨rfl, rfl⟩
  | cons top rest ih =>
    cases top with
    | group opened =>
      -- An open group would have been an error.
      cases finished
    | operator waiting place =>
      obtain ⟨combined, applied, finished⟩ := bind_eq_ok.mp finished
      have merged := Tree.length_of_applyLatest applied
      obtain ⟨paid, shallow⟩ := ih finished
      refine ⟨?_, shallow⟩
      show settled.length + (waiting.merges + debt rest) = trees.length
      omega

/-- A token adds its operand or its debt, and opens or closes its group. -/
theorem balance_step {placed : PlacedToken} (stepped : x.step placed = .ok y) :
    y.operands.length + debt x.pending + placed.token.loss =
        x.operands.length + debt y.pending + placed.token.gain ∧
      depth y.pending + placed.token.closes = depth x.pending + placed.token.opens := by
  unfold step at stepped
  cases token : placed.token with
  | literal c =>
    rw [token] at stepped
    cases stepped
    refine ⟨?_, rfl⟩
    show x.operands.length + 1 + debt x.pending + 0 = x.operands.length + debt x.pending + 1
    omega
  | opening =>
    rw [token] at stepped
    cases stepped
    exact ⟨rfl, rfl⟩
  | closing =>
    rw [token] at stepped
    obtain ⟨paid, shallower⟩ := balance_closeGroup stepped
    exact ⟨paid, shallower.symm⟩
  | operator operator =>
    rw [token] at stepped
    obtain ⟨tightened, applied, stepped⟩ := bind_eq_ok.mp stepped
    obtain ⟨paid, level⟩ := balance_applyTighter applied
    cases stepped
    -- The operator itself is new debt.
    refine ⟨?_, level⟩
    show tightened.operands.length + debt x.pending + operator.merges =
      x.operands.length + (operator.merges + debt tightened.pending) + 0
    omega

end Reading

end PatternAutomata
