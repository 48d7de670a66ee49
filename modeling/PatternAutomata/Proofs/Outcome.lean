/-! Sequences of steps that may fail and lists that grow step by step, and what holds of them. -/

namespace PatternAutomata

/-- An element of a list with one more at its end is an earlier one or the last. -/
theorem getElem?_snoc {α : Type} {list : List α} {last a : α} {i : Nat} :
    (list ++ [last])[i]? = some a ↔ list[i]? = some a ∨ i = list.length ∧ a = last := by
  -- The last element is the only one at or behind the end of the list.
  rcases Nat.lt_trichotomy i list.length with before | same | after
  · rw [List.getElem?_append_left before]
    simp [Nat.ne_of_lt before]
  · subst same
    simp [eq_comm]
  · rw [List.getElem?_eq_none (by simp; omega), List.getElem?_eq_none (by omega)]
    simp [Nat.ne_of_gt after]

/-- A new element that is appended is found at the end, and all others where they were. -/
theorem idxOf?_snoc {α : Type} [DecidableEq α] {list : List α} {last : α} (fresh : last ∉ list)
    (a : α) : (list ++ [last]).idxOf? a = if a = last then some list.length else list.idxOf? a := by
  rw [List.idxOf?, List.findIdx?_append, List.findIdx?_singleton, ← List.idxOf?]
  -- The new element is found only at the end, and all others only in front of it.
  by_cases same : a = last
  · subst same
    rw [List.idxOf?_eq_none_iff.mpr fresh]
    simp
  · have differs : (last == a) = false := beq_eq_false_iff_ne.mpr (Ne.symm same)
    simp [differs, same]

namespace Outcome

variable {ε α σ τ : Type}

/-- A value is changed exactly if there is one. -/
theorem map_eq_ok {first : Except ε σ} {change : σ → τ} {result : τ} :
    first.map change = .ok result ↔ ∃ value, first = .ok value ∧ change value = result := by
  -- A value is only ever changed into another value.
  cases first with
  | error error => simp [Except.map]
  | ok value => simp [Except.map]

/-- A change of a value fails only as the value itself does. -/
theorem map_eq_error {first : Except ε σ} {change : σ → τ} {error : ε} :
    first.map change = .error error ↔ first = .error error := by
  -- No failure comes or goes when a value is changed.
  cases first with
  | error error => simp [Except.map]
  | ok value => simp [Except.map]

/-- Two changes of a value are one change. -/
theorem map_map (first : Except ε σ) (change : σ → τ) {υ : Type} (again : τ → υ) :
    (first.map change).map again = first.map fun value => again (change value) := by
  cases first with
  | error error => rfl
  | ok value => rfl

/-- Two steps succeed exactly when the first does and then the second does on its result. -/
theorem bind_eq_ok {first : Except ε σ} {next : σ → Except ε τ} {result : τ} :
    (first >>= next) = .ok result ↔ ∃ value, first = .ok value ∧ next value = .ok result := by
  -- A failure of the first step is the failure of both.
  cases first with
  | error error => simp [Bind.bind, Except.bind]
  | ok value => simp [Bind.bind, Except.bind]

/-- Two steps fail exactly when the first does or the second does on its result. -/
theorem bind_eq_error {first : Except ε σ} {next : σ → Except ε τ} {error : ε} :
    (first >>= next) = .error error ↔
      first = .error error ∨ ∃ value, first = .ok value ∧ next value = .error error := by
  -- If the first part gives a value, only the second one can have failed.
  cases first with
  | error error => simp [Bind.bind, Except.bind]
  | ok value => simp [Bind.bind, Except.bind]

/-- Two steps succeed one after the other. -/
theorem bind_ok {first : Except ε σ} {next : σ → Except ε τ} {value : σ} {result : τ}
    (done : first = .ok value) (onward : next value = .ok result) :
    (first >>= next) = .ok result := by
  rw [done]
  exact onward

/-- A step that cannot fail hands its value on. -/
@[simp] theorem ok_bind (value : σ) (next : σ → Except ε τ) :
    ((.ok value : Except ε σ) >>= next) = next value :=
  rfl

/--
A loop over a list succeeds and ends in the invariant if every step does.

The invariant may speak of the elements that have been processed.
-/
theorem foldlM_ok (step : σ → α → Except ε σ) (Inv : List α → σ → Prop) (list : List α) {s : σ}
    (initial : Inv [] s)
    (onward : ∀ before, ∀ a ∈ list, ∀ s, Inv before s →
      ∃ s', step s a = .ok s' ∧ Inv (before ++ [a]) s') :
    ∃ s', list.foldlM step s = .ok s' ∧ Inv list s' := by
  -- The processed elements are those in front of the rest, on which the induction is.
  have general : ∀ (rest before : List α) (s : σ), (∀ a ∈ rest, a ∈ list) → Inv before s →
      ∃ s', rest.foldlM step s = .ok s' ∧ Inv (before ++ rest) s' := by
    intro rest
    induction rest with
    | nil =>
      intro before s _ holds
      exact ⟨s, rfl, by simpa using holds⟩
    | cons a rest ih =>
      intro before s inside holds
      obtain ⟨next, stepped, holds⟩ := onward before a (inside a List.mem_cons_self) s holds
      obtain ⟨last, looped, holds⟩ :=
        ih (before ++ [a]) next (fun b later => inside b (List.mem_cons_of_mem _ later)) holds
      refine ⟨last, ?_, by simpa using holds⟩
      rw [List.foldlM_cons, stepped, ok_bind, looped]
  exact general list [] s (fun _ inside => inside) initial

/--
What holds at first and is kept by every step holds at the end of a loop that succeeds.

It may speak of the elements that have been processed.
-/
theorem foldlM_induct {step : σ → α → Except ε σ} {P : List α → σ → Prop} {list : List α}
    {s s' : σ} (nothing : P [] s)
    (snoc : ∀ before a after s s', before ++ a :: after = list → P before s → step s a = .ok s' →
      P (before ++ [a]) s')
    (looped : list.foldlM step s = .ok s') : P list s' := by
  -- The induction is on the elements that are still to be processed.
  have general : ∀ (rest before : List α) (s : σ), before ++ rest = list → P before s →
      rest.foldlM step s = .ok s' → P list s' := by
    intro rest
    induction rest with
    | nil =>
      intro before s whole holds looped
      cases looped
      rwa [← whole, List.append_nil]
    | cons a rest ih =>
      intro before s whole holds looped
      rw [List.foldlM_cons, bind_eq_ok] at looped
      obtain ⟨next, stepped, looped⟩ := looped
      have kept := snoc before a rest s next whole holds stepped
      exact ih (before ++ [a]) next (by rw [← whole, List.append_assoc]; rfl) kept looped
  exact general list [] s rfl nothing looped

/-- Whatever every successful step preserves, a successful loop preserves. -/
theorem foldlM_preserves {step : σ → α → Except ε σ} {Inv : σ → Prop}
    (onward : ∀ s a s', Inv s → step s a = .ok s' → Inv s') {list : List α} {s s' : σ}
    (holds : Inv s) (looped : list.foldlM step s = .ok s') : Inv s' :=
  foldlM_induct (P := fun _ => Inv) holds (fun _ a _ s s' _ => onward s a s') looped

/-- A loop fails only as one of its steps does. -/
theorem foldlM_error {step : σ → α → Except ε σ} {Kind : ε → Prop}
    (each : ∀ s a error, step s a = .error error → Kind error) {list : List α} {s : σ} {error : ε}
    (failed : list.foldlM step s = .error error) : Kind error := by
  -- Either the first step fails, or it succeeds and the rest of the loop fails.
  induction list generalizing s with
  | nil => cases failed
  | cons a rest ih =>
    rw [List.foldlM_cons, bind_eq_error] at failed
    rcases failed with failed | ⟨next, _, failed⟩
    · exact each s a error failed
    · exact ih failed

/--
A loop succeeds where another one has if each of its steps does where the other's has.

The loops may fail in different ways, and their values stay related.
-/
theorem foldlM_follows {δ : Type} {leader : σ → α → Except ε σ} (step : τ → α → Except δ τ)
    (related : σ → τ → Prop) {list : List α}
    (onward : ∀ a ∈ list, ∀ s t s', related s t → leader s a = .ok s' →
      ∃ t', step t a = .ok t' ∧ related s' t') {s s' : σ} {t : τ} (values : related s t)
    (led : list.foldlM leader s = .ok s') :
    ∃ t', list.foldlM step t = .ok t' ∧ related s' t' := by
  -- The other loop has taken each of its steps with success.
  induction list generalizing s t with
  | nil =>
    cases led
    exact ⟨t, rfl, values⟩
  | cons a rest ih =>
    rw [List.foldlM_cons, bind_eq_ok] at led
    obtain ⟨next, stepped, led⟩ := led
    obtain ⟨next', stepped', values⟩ := onward a List.mem_cons_self s t next values stepped
    obtain ⟨last, looped, values⟩ :=
      ih (fun b later => onward b (List.mem_cons_of_mem a later)) values led
    exact ⟨last, bind_ok stepped' looped, values⟩

/-- If every element of a list has a value, the list of the values can be made. -/
theorem mapM_eq_ok {f : α → Except ε σ} {value : α → σ} {list : List α}
    (each : ∀ a ∈ list, f a = .ok (value a)) : list.mapM f = .ok (list.map value) := by
  induction list with
  | nil => rfl
  | cons a rest ih =>
    -- Neither the first element nor any later one can fail.
    rw [List.mapM_cons, each a List.mem_cons_self,
      ih fun b later => each b (List.mem_cons_of_mem a later)]
    rfl

/-- Two outcomes agree when both are the same failure or both succeed with related values. -/
inductive Agree (related : σ → τ → Prop) : Except ε σ → Except ε τ → Prop where
  /-- Both succeed. -/
  | ok {s : σ} {t : τ} (values : related s t) : Agree related (.ok s) (.ok t)
  /-- Both fail in the same way. -/
  | error (error : ε) : Agree related (.error error) (.error error)

namespace Agree

variable {σ' τ' : Type} {related : σ → τ → Prop} {related' : σ' → τ' → Prop}

/-- An outcome agrees with itself. -/
theorem refl (outcome : Except ε σ) : Agree Eq outcome outcome := by
  cases outcome with
  | ok value => exact Agree.ok rfl
  | error error => exact Agree.error error

/-- Outcomes that agree in their values are the same. -/
theorem eq {first second : Except ε σ} (agree : Agree Eq first second) : first = second := by
  cases agree with
  | ok values => exact congrArg _ values
  | error error => rfl

/-- What agrees with a success is a success. -/
theorem ok_left {s : σ} {second : Except ε τ} (agree : Agree related (.ok s) second) :
    ∃ t, second = .ok t ∧ related s t := by
  cases agree with
  | ok values => exact ⟨_, rfl, values⟩

/-- What a success agrees with is a success. -/
theorem ok_right {t : τ} {first : Except ε σ} (agree : Agree related first (.ok t)) :
    ∃ s, first = .ok s ∧ related s t := by
  cases agree with
  | ok values => exact ⟨_, rfl, values⟩

/-- What a failure agrees with is the same failure. -/
theorem error_left {error : ε} {second : Except ε τ}
    (agree : Agree related (.error error) second) : second = .error error := by
  cases agree with
  | error error => rfl

/-- What a failure agrees with from the other side is the same failure. -/
theorem error_right {error : ε} {first : Except ε σ}
    (agree : Agree related first (.error error)) : first = .error error := by
  cases agree with
  | error error => rfl

/-- Agreement is handed on from one step to the next. -/
theorem bind {first : Except ε σ} {second : Except ε τ} {f : σ → Except ε σ'} {g : τ → Except ε τ'}
    (agree : Agree related first second)
    (onward : ∀ s t, related s t → Agree related' (f s) (g t)) :
    Agree related' (first >>= f) (second >>= g) := by
  -- Either both have given related values, or both have failed in one way.
  cases agree with
  | ok values => exact onward _ _ values
  | error error => exact Agree.error error

/-- Loops over one list agree when each step does. -/
theorem foldlM {f : σ → α → Except ε σ} {g : τ → α → Except ε τ}
    (onward : ∀ s t a, related s t → Agree related (f s a) (g t a)) (list : List α) {s : σ} {t : τ}
    (values : related s t) : Agree related (list.foldlM f s) (list.foldlM g t) := by
  -- After each step the values are related again, unless both loops have failed.
  induction list generalizing s t with
  | nil => exact Agree.ok values
  | cons a rest ih =>
    rw [List.foldlM_cons, List.foldlM_cons]
    exact (onward s t a values).bind fun _ _ values => ih values

end Agree

end Outcome

end PatternAutomata
