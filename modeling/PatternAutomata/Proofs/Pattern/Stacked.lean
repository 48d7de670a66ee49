import PatternAutomata.Pattern.Stacked
import PatternAutomata.Proofs.Outcome

/-! Nothing but groups and operators ever waits, so nothing but operators is applied. -/

namespace PatternAutomata

open Outcome

/-- The token that began to wait. -/
def Pending.placed : Pending → PlacedToken
  | group position => ⟨.opening, position⟩
  | operator op position => ⟨.operator op, position⟩

namespace Stacked

variable {σ : Type} [OperandStack σ]

/-- The operands are the same, and what waits in one are the tokens that wait in the other. -/
def Mirrors (x : Reading σ) (y : Stacked σ) : Prop :=
  x.operands = y.operands ∧ y.waiting = x.pending.map Pending.placed

/-- A group is closed in the same way. -/
theorem agree_closeGroup (position : Nat) (pending : List Pending) (operands : σ) :
    Agree Mirrors (Reading.closeGroup position pending operands)
      (closeGroup position (pending.map Pending.placed) operands) := by
  -- The token of an open group is recognized, and that of an operator is applied as such.
  induction pending generalizing operands with
  | nil => exact Agree.error _
  | cons top rest ih =>
    cases top with
    | group opened =>
      simp only [Reading.closeGroup, List.map_cons, closeGroup, Pending.placed, if_true]
      split
      · exact Agree.error _
      · exact Agree.ok ⟨rfl, rfl⟩
    | operator waiting place =>
      refine (Agree.refl _).bind fun applied _ same => ?_
      subst same
      exact ih applied

/-- Tighter operators are applied in the same way. -/
theorem agree_applyTighter (operator : Operator) (pending : List Pending) (operands : σ) :
    Agree Mirrors (Reading.applyTighter operator pending operands)
      (applyTighter operator (pending.map Pending.placed) operands) := by
  -- The token of an operator has the precedence of the operator.
  induction pending generalizing operands with
  | nil => exact Agree.ok ⟨rfl, rfl⟩
  | cons top rest ih =>
    cases top with
    | group opened => exact Agree.ok ⟨rfl, rfl⟩
    | operator waiting place =>
      unfold Reading.applyTighter
      rw [List.map_cons, applyTighter]
      simp only [Pending.placed, reduceCtorEq, false_or, Token.precedence]
      split
      · exact Agree.ok ⟨rfl, rfl⟩
      · refine (Agree.refl _).bind fun applied _ same => ?_
        subst same
        exact ih applied

/-- A token is taken in in the same way. -/
theorem agree_step {x : Reading σ} {y : Stacked σ} (placed : PlacedToken) (mirrors : Mirrors x y) :
    Agree Mirrors (x.step placed) (y.step placed) := by
  -- A token begins to wait on both sides or on neither.
  obtain ⟨operands, pending⟩ := x
  obtain ⟨_, _⟩ := y
  obtain ⟨same, waits⟩ := mirrors
  cases same
  cases waits
  obtain ⟨token, position⟩ := placed
  cases token with
  | literal c =>
    refine (Agree.refl _).bind fun pushed _ same => ?_
    subst same
    exact Agree.ok ⟨rfl, rfl⟩
  | opening => exact Agree.ok ⟨rfl, rfl⟩
  | closing => exact agree_closeGroup position pending operands
  | operator operator =>
    refine (agree_applyTighter operator pending operands).bind fun x y mirrors => ?_
    exact Agree.ok ⟨mirrors.1, congrArg (_ :: ·) mirrors.2⟩

/-- Tokens are taken in in the same way from the beginning on. -/
theorem agree_foldlM (initial : σ) (tokens : List PlacedToken) :
    Agree Mirrors (tokens.foldlM Reading.step ⟨initial, []⟩)
      (tokens.foldlM step ⟨initial, []⟩) := by
  have begun : Mirrors (⟨initial, []⟩ : Reading σ) ⟨initial, []⟩ := ⟨rfl, rfl⟩
  -- By induction over the tokens, beginning with nothing on either stack.
  exact Agree.foldlM (fun _ _ placed => agree_step placed) tokens begun

/-- The end of a pattern is settled in the same way. -/
theorem finish_eq (pending : List Pending) (operands : σ) :
    finish (pending.map Pending.placed) operands = Reading.finish pending operands := by
  -- An open group ends both at once, and an operator is applied by both.
  induction pending generalizing operands with
  | nil => rfl
  | cons top rest ih =>
    cases top with
    | group opened => rfl
    | operator waiting place => exact congrArg (_ >>= ·) (funext fun applied => ih applied)

/-- A whole pattern is read in the same way. -/
theorem ofPattern_eq (initial : σ) (pattern : List Char) :
    ofPattern initial pattern = Reading.ofPattern initial pattern := by
  cases pattern with
  | nil => rfl
  | cons c rest =>
    refine congrArg (_ >>= ·) (funext fun tokens => ?_)
    -- Once the tokens have been taken in, the same operands are left and the same waits.
    symm
    refine Agree.eq ((agree_foldlM initial tokens).bind fun x y mirrors => ?_)
    obtain ⟨same, waits⟩ := mirrors
    rw [waits, finish_eq, same]
    exact Agree.refl _

/-- Patterns compile to the same automata, and fail with the same errors. -/
theorem compile_eq (pattern : String) : compile pattern = PatternAutomata.compile pattern := by
  rw [compile, ofPattern_eq]
  rfl

end Stacked

end PatternAutomata
