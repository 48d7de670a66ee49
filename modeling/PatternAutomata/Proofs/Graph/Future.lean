import PatternAutomata.Proofs.Graph.Deterministic
import PatternAutomata.Proofs.Graph.Trim

/-! What can become of inputs that are read from a state of a deterministic graph. -/

namespace PatternAutomata

namespace Graph

/-- The state that an input leads to from a state, unless it leads nowhere. -/
def reach? (g : Graph) (p : State) : List Char → Option State
  | [] => some p
  -- There is a single way on where there is no choice.
  | c :: rest => (g.successor? p c).bind fun q => g.reach? q rest

/-- What becomes of inputs read from a state: nothing, or an end in a final state or another. -/
def future (g : Graph) (p : State) (input : List Char) : Option Bool :=
  (g.reach? p input).map g.isFinal

variable {g h : Graph} {p q : State} {c : Char} {input : List Char}

/-- An input is read by reading its parts one after the other. -/
theorem reach?_append (g : Graph) (p : State) (first second : List Char) :
    g.reach? p (first ++ second) = (g.reach? p first).bind fun q => g.reach? q second := by
  induction first generalizing p with
  | nil => rfl
  | cons c rest ih =>
    simp only [List.cons_append, reach?, ih]
    -- Without a successor neither side goes on.
    cases g.successor? p c <;> rfl

/-- States that are reached from states of a well-formed graph are states of it. -/
theorem WellFormed.mem_of_reach? (wf : g.WellFormed) (inside : p ∈ g.states)
    (reached : g.reach? p input = some q) : q ∈ g.states := by
  -- By induction on what is read, as every edge enters a state of the graph.
  induction input generalizing p with
  | nil =>
    cases reached
    exact inside
  | cons c rest ih =>
    obtain ⟨next, step, onward⟩ := Option.bind_eq_some_iff.mp reached
    exact ih (wf.target_mem _ (edge_of_successor? step)) onward

/-- Nothing is read at first, so the state itself decides. -/
@[simp] theorem future_nil (g : Graph) (p : State) : g.future p [] = some (g.isFinal p) := rfl

/-- After a character the future is that of the successor. -/
@[simp] theorem future_cons (g : Graph) (p : State) (c : Char) (rest : List Char) :
    g.future p (c :: rest) = (g.successor? p c).bind fun q => g.future q rest := by
  simp only [future, reach?]
  -- If there is no successor, nothing further is read.
  cases g.successor? p c <;> rfl

/-- States with one future have successors with one future, or neither has a successor. -/
theorem successor?_of_future_eq (same : g.future p = h.future q) (c : Char) :
    (g.successor? p c = none ∧ h.successor? q c = none) ∨
      ∃ p' q', g.successor? p c = some p' ∧ h.successor? q c = some q' ∧
        g.future p' = h.future q' := by
  -- The future of a single character is missing exactly where the successor is.
  have single := congrFun same [c]
  cases next : g.successor? p c with
  | none =>
    cases next' : h.successor? q c with
    | none => exact Or.inl ⟨rfl, rfl⟩
    | some q' => simp [next, next'] at single
  | some p' =>
    cases next' : h.successor? q c with
    | none => simp [next, next'] at single
    | some q' =>
      refine Or.inr ⟨p', q', rfl, rfl, ?_⟩
      funext rest
      simpa [next, next'] using congrFun same (c :: rest)

/-- If a longer input has a future, its beginning leads somewhere. -/
theorem exists_reach?_of_future_append {first second : List Char} {final : Bool}
    (ends : g.future p (first ++ second) = some final) : ∃ q, g.reach? p first = some q := by
  rw [future, reach?_append, Option.map_eq_some_iff] at ends
  -- What reaches the end has passed the place between both parts.
  obtain ⟨last, reached, _⟩ := ends
  obtain ⟨q, head, _⟩ := Option.bind_eq_some_iff.mp reached
  exact ⟨q, head⟩

/-- States are separated when they differ in what can become of inputs. -/
def Separated (g : Graph) : Prop :=
  -- An input that leads nowhere from one state only tells states apart as well.
  ∀ p ∈ g.states, ∀ q ∈ g.states, g.future p = g.future q → p = q

namespace Deterministic

/-- The state that an input leads to is the end of the only path that reads it. -/
theorem reach?_eq_some (det : g.Deterministic) : g.reach? p input = some q ↔ g.Path p input q := by
  -- Silent steps do not occur, and a character leaves one choice at most.
  constructor
  · intro reached
    induction input generalizing p with
    | nil =>
      cases reached
      exact Path.here _
    | cons c rest ih =>
      obtain ⟨next, step, onward⟩ := Option.bind_eq_some_iff.mp reached
      exact Path.read (edge_of_successor? step) (ih onward)
  · intro path
    induction path with
    | here p => rfl
    | silent edge _ _ => exact absurd edge (det.not_silent _ _)
    | read edge _ ih =>
      rw [reach?, det.successor?_eq_some.mpr edge]
      exact ih

/-- An input is accepted from a state when its future is to end in a final state. -/
theorem acceptsFrom_eq_true_iff (det : g.Deterministic) :
    g.acceptsFrom {p} input = true ↔ g.future p input = some true := by
  rw [acceptsFrom_iff (det.silentlyClosed _)]
  -- A single state is silently closed here, so that its paths decide.
  simp [future, isFinal, Option.map_eq_some_iff, det.reach?_eq_some, and_comm]

/-- An input that leads somewhere is accepted or not as its future says. -/
theorem future_eq_some (det : g.Deterministic) (reached : g.reach? p input = some q) :
    g.future p input = some (g.acceptsFrom {p} input) := by
  -- Whether the state that is reached is final is what the future says.
  have known : g.future p input = some (g.isFinal q) := by simp [future, reached]
  rw [known, Option.some_inj, Bool.eq_iff_iff, det.acceptsFrom_eq_true_iff, known, Option.some_inj]

/-- What follows an input is accepted from the state that the input leads to. -/
theorem acceptsFrom_append (det : g.Deterministic) {first : List Char}
    (reached : g.reach? p first = some q) (second : List Char) :
    g.acceptsFrom {p} (first ++ second) = g.acceptsFrom {q} second := by
  rw [Bool.eq_iff_iff, det.acceptsFrom_eq_true_iff, det.acceptsFrom_eq_true_iff]
  -- The first part leads to one state only, where the second one begins.
  simp [future, reach?_append, reached]

/-- A state reaches a final one when some future is to end in a final state. -/
theorem coaccessible_iff (det : g.Deterministic) :
    g.Coaccessible p ↔ ∃ input, g.future p input = some true := by
  simp [Coaccessible, future, isFinal, Option.map_eq_some_iff, det.reach?_eq_some, and_comm]

/-- Advancing from a single state by an input ends at most in the state that it leads to. -/
theorem advanceAll_singleton (det : g.Deterministic) (p : State) (input : List Char) :
    g.advanceAll {p} input = match g.reach? p input with
      | some q => {q}
      | none => ∅ := by
  induction input generalizing p with
  | nil => rfl
  | cons c rest ih =>
    show g.advanceAll (g.advance {p} c) rest = _
    rw [det.advance_singleton, reach?]
    -- From a singleton a step leads to a singleton or to nothing.
    cases g.successor? p c with
    | none => exact advanceAll_empty g rest
    | some q => exact ih q

/-- Reading an input ends in a single state exactly if a path leads there. -/
theorem advanceAll_eq_singleton_iff (det : g.Deterministic) :
    g.advanceAll {p} input = {q} ↔ g.Path p input q := by
  rw [det.advanceAll_singleton, ← det.reach?_eq_some]
  -- A singleton is never empty, so both sides name the state that is reached.
  cases g.reach? p input <;> simp

end Deterministic

/-- Where two states accept the same inputs, one has a future only if the other has. -/
private theorem exists_reach?_of_acceptsFrom_eq (det : g.Deterministic) (wf : g.WellFormed)
    (productive : g.Productive) (det' : h.Deterministic) (inside : p ∈ g.states)
    (same : g.acceptsFrom {p} = h.acceptsFrom {q}) {p' : State}
    (reached : g.reach? p input = some p') : ∃ q', h.reach? q input = some q' := by
  -- What is reached goes on to a final state, so a longer input is accepted on both sides.
  obtain ⟨rest, onward⟩ := det.coaccessible_iff.mp (productive p' (wf.mem_of_reach? inside reached))
  rw [← det.acceptsFrom_eq_true_iff, ← det.acceptsFrom_append reached, same,
    det'.acceptsFrom_eq_true_iff] at onward
  exact exists_reach?_of_future_append onward

/-- In productive graphs states that accept the same inputs have one future. -/
theorem future_eq_of_acceptsFrom_eq (det : g.Deterministic) (wf : g.WellFormed)
    (productive : g.Productive) (det' : h.Deterministic) (wf' : h.WellFormed)
    (productive' : h.Productive) (left : p ∈ g.states) (right : q ∈ h.states)
    (same : g.acceptsFrom {p} = h.acceptsFrom {q}) : g.future p = h.future q := by
  funext input
  cases reached : g.reach? p input with
  | some p' =>
    obtain ⟨q', reached'⟩ :=
      exists_reach?_of_acceptsFrom_eq det wf productive det' left same reached
    rw [det.future_eq_some reached, det'.future_eq_some reached', same]
  | none =>
    -- A state that the input led to on the other side would have its counterpart on this side.
    cases reached' : h.reach? q input with
    | some q' =>
      obtain ⟨p', contrary⟩ :=
        exists_reach?_of_acceptsFrom_eq det' wf' productive' det right same.symm reached'
      simp [reached] at contrary
    | none => simp [future, reached, reached']

/-- Deterministic graphs that accept the same inputs accept them from their starts. -/
theorem acceptsFrom_start_eq (det : g.Deterministic) (begins : g.start = some p)
    (det' : h.Deterministic) (begins' : h.start = some q)
    (same : ∀ input, g.accepts input = h.accepts input) :
    g.acceptsFrom {p} = h.acceptsFrom {q} := by
  funext input
  -- Every list of characters is the list of some string.
  have alike := same (String.ofList input)
  rwa [det.accepts_eq begins, det'.accepts_eq begins', String.toList_ofList] at alike

/-- What keeps track of a single state of a deterministic graph has its future. -/
theorem Tracks.future_eq {Related : State → SortedSet State → Prop} (tracks : Tracks h g Related)
    (det : g.Deterministic) {k : State} (related : Related k {p}) : h.future k = g.future p := by
  funext input
  induction input generalizing k p with
  | nil => simp [isFinal, tracks.final_iff k {p} related]
  | cons c rest ih =>
    -- The two states go on to related states, or neither goes on.
    have advanced := det.advance_singleton p c
    cases next : g.successor? p c with
    | none =>
      rw [next] at advanced
      simp [next, tracks.stop k {p} c related advanced]
    | some q =>
      rw [next] at advanced
      have somewhere : g.advance {p} c ≠ ∅ := by simp [advanced]
      obtain ⟨k', next', related'⟩ := tracks.onward k {p} c related somewhere
      rw [advanced] at related'
      simp [next, next', ih related']

end Graph

end PatternAutomata
