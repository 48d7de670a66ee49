import PatternAutomata.Error

/-! Steps on a state that may fail half way, where what has been written until then stays. -/

namespace PatternAutomata

/-- Steps that read and write a state, where what has been written stays if a later step fails. -/
abbrev Steps (σ α : Type) := EStateM Error σ α

namespace Steps

variable {σ α : Type}

/-- The state that some steps leave behind, and what they give or why they have failed. -/
def perform (steps : Steps σ α) (s : σ) : σ × Except Error α :=
  -- Failing does not bring the state back that there was before the first step.
  match steps.run s with
  | .ok value changed => (changed, .ok value)
  | .error error left => (left, .error error)

end Steps

end PatternAutomata
