import PatternAutomata.Steps

/-! What steps leave and give, one after the other. -/

namespace PatternAutomata

namespace Steps

variable {σ α β : Type}

/-- Steps go on with what the ones before have left, unless these have failed. -/
theorem perform_bind (first : Steps σ α) (next : α → Steps σ β) (s : σ) :
    (first >>= next).perform s = match first.perform s with
      | (changed, .ok value) => (next value).perform changed
      | (left, .error error) => (left, .error error) := by
  -- Both sides look at the outcome of the first steps alone.
  simp only [perform, EStateM.run, bind, EStateM.bind]
  cases first s with
  | ok value changed => rfl
  | error error left => rfl

/-- Nothing is written for a value that is there already. -/
@[simp] theorem perform_pure (value : α) (s : σ) :
    (pure value : Steps σ α).perform s = (s, .ok value) :=
  rfl

/-- What is written is what the state becomes. -/
@[simp] theorem perform_modify (write : σ → σ) (s : σ) :
    (modify write : Steps σ Unit).perform s = (write s, .ok ()) :=
  rfl

/-- The state can be looked at. -/
@[simp] theorem perform_get (s : σ) : (get : Steps σ σ).perform s = (s, .ok s) :=
  rfl

/-- A failure leaves what has been written. -/
@[simp] theorem perform_throw (error : Error) (s : σ) :
    (throw error : Steps σ α).perform s = (s, .error error) :=
  rfl

end Steps

end PatternAutomata
