import PatternAutomata.Pattern.Reading
import PatternAutomata.Proofs.Outcome

/-! Reading a pattern goes the same way for all operand stacks that behave alike. -/

namespace PatternAutomata

open Outcome

/-- Two operand stacks behave alike as long as a relation between them lasts. -/
structure Alike {σ τ : Type} [OperandStack σ] [OperandStack τ] (related : σ → τ → Prop) :
    Prop where
  /-- A character is added to both or to neither. -/
  pushLiteral : ∀ s t c, related s t →
    Agree related (OperandStack.pushLiteral s c) (OperandStack.pushLiteral t c)
  /-- An operator is applied to both, or both lack an operand for it. -/
  apply : ∀ s t operator position, related s t →
    Agree related (OperandStack.apply s operator position) (OperandStack.apply t operator position)

namespace Reading

variable {σ τ : Type} [OperandStack σ] [OperandStack τ] {related : σ → τ → Prop} {s : σ} {t : τ}

/-- Two readings are level when the same waits in both and their operands are related. -/
def Level (related : σ → τ → Prop) (x : Reading σ) (y : Reading τ) : Prop :=
  x.pending = y.pending ∧ related x.operands y.operands

/-- A group is closed alike. -/
theorem agree_closeGroup (alike : Alike related) (position : Nat) (pending : List Pending)
    (values : related s t) :
    Agree (Level related) (closeGroup position pending s) (closeGroup position pending t) := by
  -- What is done next depends only on what waits, which is the same on both sides.
  induction pending generalizing s t with
  | nil => exact Agree.error _
  | cons top rest ih =>
    cases top with
    | group opened =>
      unfold closeGroup
      split
      · exact Agree.error _
      · exact Agree.ok ⟨rfl, values⟩
    | operator waiting place =>
      exact (alike.apply s t waiting place values).bind fun _ _ values => ih values

/-- Tighter operators are applied alike. -/
theorem agree_applyTighter (alike : Alike related) (operator : Operator) (pending : List Pending)
    (values : related s t) :
    Agree (Level related) (applyTighter operator pending s) (applyTighter operator pending t) := by
  -- Whether an operator is tighter is seen without the operands.
  induction pending generalizing s t with
  | nil => exact Agree.ok ⟨rfl, values⟩
  | cons top rest ih =>
    cases top with
    | group opened => exact Agree.ok ⟨rfl, values⟩
    | operator waiting place =>
      unfold applyTighter
      split
      · exact Agree.ok ⟨rfl, values⟩
      · exact (alike.apply s t waiting place values).bind fun _ _ values => ih values

/-- A token is taken in alike. -/
theorem agree_step (alike : Alike related) {x : Reading σ} {y : Reading τ} (placed : PlacedToken)
    (level : Level related x y) : Agree (Level related) (x.step placed) (y.step placed) := by
  obtain ⟨xOperands, pending⟩ := x
  obtain ⟨yOperands, _⟩ := y
  obtain ⟨same, values⟩ := level
  -- The same operators and groups wait in both.
  cases same
  unfold step
  cases placed.token with
  | literal c =>
    exact (alike.pushLiteral _ _ c values).bind fun _ _ values => Agree.ok ⟨rfl, values⟩
  | opening => exact Agree.ok ⟨rfl, values⟩
  | closing => exact agree_closeGroup alike _ pending values
  | operator operator =>
    refine (agree_applyTighter alike operator pending values).bind fun x y level => ?_
    exact Agree.ok ⟨congrArg _ level.1, level.2⟩

/-- Tokens are taken in alike from the beginning on. -/
theorem agree_foldlM (alike : Alike related) (values : related s t) (tokens : List PlacedToken) :
    Agree (Level related) (tokens.foldlM step ⟨s, []⟩) (tokens.foldlM step ⟨t, []⟩) := by
  have begun : Level related (⟨s, []⟩ : Reading σ) (⟨t, []⟩ : Reading τ) := ⟨rfl, values⟩
  -- By induction over the tokens, beginning with related operands.
  exact Agree.foldlM (fun _ _ placed => agree_step alike placed) tokens begun

/-- The end of a pattern is settled alike. -/
theorem agree_finish (alike : Alike related) (pending : List Pending) (values : related s t) :
    Agree related (finish pending s) (finish pending t) := by
  -- Both sides meet the same open group, or apply the same operators to the end.
  induction pending generalizing s t with
  | nil => exact Agree.ok values
  | cons top rest ih =>
    cases top with
    | group opened => exact Agree.error _
    | operator waiting place =>
      exact (alike.apply s t waiting place values).bind fun _ _ values => ih values

/-- A pattern that is not empty is taken apart into tokens, which are then taken in one by one. -/
theorem ofPattern_cons (initial : σ) (c : Char) (rest : List Char) :
    ofPattern initial (c :: rest) = (PlacedToken.ofPattern (c :: rest) >>= fun tokens =>
      tokens.foldlM step ⟨initial, []⟩ >>= fun state => finish state.pending state.operands) :=
  rfl

/-- A whole pattern is read alike. -/
theorem agree_ofPattern (alike : Alike related) (values : related s t) (pattern : List Char) :
    Agree related (ofPattern s pattern) (ofPattern t pattern) := by
  cases pattern with
  | nil => exact Agree.error _
  | cons c rest =>
    rw [ofPattern_cons, ofPattern_cons]
    -- The tokens are the same, and so is what waits once they have all been taken in.
    refine (Agree.refl _).bind fun tokens _ same => ?_
    subst same
    refine (agree_foldlM alike values tokens).bind fun x y level => ?_
    rw [level.1]
    exact agree_finish alike _ level.2

end Reading

end PatternAutomata
