import PatternAutomata.Graph.Basic

/-! What holds of every graph that is built from the empty one by the operations on graphs. -/

namespace PatternAutomata

namespace Graph

/-- All parts of a graph speak of its own states, and its alphabet is what its edges read. -/
structure WellFormed (g : Graph) : Prop where
  /-- No state has the number of a new state or a larger one. -/
  states_lt : ∀ state ∈ g.states, state < g.next
  /-- Edges leave states of the graph. -/
  source_mem : ∀ edge ∈ g.edges, edge.source ∈ g.states
  /-- Edges enter states of the graph. -/
  target_mem : ∀ edge ∈ g.edges, edge.target ∈ g.states
  /-- The start is a state of the graph. -/
  start_mem : ∀ state, g.start = some state → state ∈ g.states
  /-- Final states are states of the graph. -/
  finals_mem : ∀ state ∈ g.finals, state ∈ g.states
  /-- The alphabet has exactly the characters that stand on edges. -/
  alphabet_iff : ∀ c, c ∈ g.alphabet ↔ ∃ edge ∈ g.edges, edge.symbol = .char c

section Successes

variable {g other changed : Graph}

/-- An edge that was added joins known states, and nothing else has changed. -/
theorem addEdge_cases {edge : Edge} (added : g.addEdge edge = .ok changed) :
    edge.source ∈ g.states ∧ edge.target ∈ g.states ∧ changed = { g with
      edges := insert edge g.edges
      alphabet := match edge.symbol with
        | .epsilon => g.alphabet
        | .char c => insert c g.alphabet } := by
  -- Both checks have passed.
  unfold addEdge at added
  split at added
  · cases added
  split at added
  · cases added
  rename_i source target
  cases added
  exact ⟨by simpa using source, by simpa using target, rfl⟩

/-- A start that was set is a known state, and nothing else has changed. -/
theorem setStart_cases {state : State} (set : g.setStart state = .ok changed) :
    state ∈ g.states ∧ changed = { g with start := some state } := by
  unfold setStart at set
  -- Only a known state is not refused.
  split at set
  · rename_i known
    cases set
    exact ⟨known, rfl⟩
  · cases set

/-- A final state that was marked is a known state, and nothing else has changed. -/
theorem markFinal_cases {state : State} (marked : g.markFinal state = .ok changed) :
    state ∈ g.states ∧ changed = { g with finals := insert state g.finals } := by
  unfold markFinal at marked
  -- Only a known state is not refused.
  split at marked
  · rename_i known
    cases marked
    exact ⟨known, rfl⟩
  · cases marked

/-- Graphs that were merged share no state, and start and final states have not changed. -/
theorem merge_cases (merged : g.merge other = .ok changed) :
    (∀ state ∈ g.states, state ∉ other.states) ∧ changed = { g with
      states := g.states ∪ other.states
      next := max g.next other.next
      edges := g.edges ∪ other.edges
      alphabet := g.alphabet ∪ other.alphabet } := by
  -- A shared state would have been reported.
  unfold merge at merged
  split at merged
  · cases merged
  · rename_i unshared
    cases merged
    exact ⟨fun state member => by simpa using List.find?_eq_none.mp unshared state member, rfl⟩

end Successes

namespace WellFormed

variable {g : Graph}

/-- A graph without states, whatever the number of its first new state, is well formed. -/
theorem blank (next : State) : ({ next } : Graph).WellFormed where
  states_lt := by simp
  source_mem := by simp
  target_mem := by simp
  start_mem := by simp
  finals_mem := by simp
  alphabet_iff := by simp

/-- A new state is not in use by a well-formed graph. -/
theorem next_not_mem (wf : g.WellFormed) : g.next ∉ g.states := by
  -- It would have to be smaller than itself.
  intro member
  exact Nat.lt_irrefl _ (wf.states_lt _ member)

/-- A new state disturbs nothing. -/
theorem createState (wf : g.WellFormed) : g.createState.2.WellFormed where
  -- The new state is the only one that the old counter does not lie above.
  states_lt := by
    intro state member
    rcases SortedSet.mem_insert.mp member with rfl | member
    · exact Nat.lt_succ_self _
    · exact Nat.lt_succ_of_lt (wf.states_lt state member)
  source_mem edge member := SortedSet.mem_insert.mpr (Or.inr (wf.source_mem edge member))
  target_mem edge member := SortedSet.mem_insert.mpr (Or.inr (wf.target_mem edge member))
  start_mem state set := SortedSet.mem_insert.mpr (Or.inr (wf.start_mem state set))
  finals_mem state member := SortedSet.mem_insert.mpr (Or.inr (wf.finals_mem state member))
  alphabet_iff := wf.alphabet_iff

/-- An accepted edge joins known states and brings its character along. -/
theorem addEdge (wf : g.WellFormed) {edge : Edge} {g' : Graph} (added : g.addEdge edge = .ok g') :
    g'.WellFormed := by
  obtain ⟨source, target, rfl⟩ := addEdge_cases added
  -- Both ends have been checked, and the alphabet grows with the edges.
  refine { wf with source_mem := ?_, target_mem := ?_, alphabet_iff := ?_ }
  · intro other member
    rcases SortedSet.mem_insert.mp member with rfl | member
    · exact source
    · exact wf.source_mem other member
  · intro other member
    rcases SortedSet.mem_insert.mp member with rfl | member
    · exact target
    · exact wf.target_mem other member
  · intro c
    cases symbol : edge.symbol with
    | epsilon => simp [symbol, wf.alphabet_iff c]
    | char d => simp [symbol, wf.alphabet_iff c, eq_comm]

/-- An accepted start is a known state. -/
theorem setStart (wf : g.WellFormed) {state : State} {g' : Graph}
    (set : g.setStart state = .ok g') : g'.WellFormed := by
  obtain ⟨known, rfl⟩ := setStart_cases set
  -- All but the start is as it was, and the start has been checked.
  refine { wf with start_mem := ?_ }
  rintro _ ⟨⟩
  exact known

/-- An accepted final state is a known state. -/
theorem markFinal (wf : g.WellFormed) {state : State} {g' : Graph}
    (marked : g.markFinal state = .ok g') : g'.WellFormed := by
  obtain ⟨known, rfl⟩ := markFinal_cases marked
  -- A final state is the one that has been checked or an earlier one.
  refine { wf with finals_mem := ?_ }
  intro other member
  rcases SortedSet.mem_insert.mp member with rfl | member
  · exact known
  · exact wf.finals_mem other member

/-- A merged graph keeps its start and final states, and has the edges and alphabets of both. -/
theorem merge (wf : g.WellFormed) {other g' : Graph} (wfOther : other.WellFormed)
    (merged : g.merge other = .ok g') : g'.WellFormed := by
  obtain ⟨_, rfl⟩ := merge_cases merged
  -- Each part of the result comes from one of the two graphs.
  refine ⟨?_, ?_, ?_, ?_, ?_, ?_⟩
  · intro state member
    rcases SortedSet.mem_union.mp member with member | member
    · exact Nat.lt_of_lt_of_le (wf.states_lt state member) (Nat.le_max_left ..)
    · exact Nat.lt_of_lt_of_le (wfOther.states_lt state member) (Nat.le_max_right ..)
  · intro edge member
    exact SortedSet.mem_union.mpr
      ((SortedSet.mem_union.mp member).imp (wf.source_mem edge) (wfOther.source_mem edge))
  · intro edge member
    exact SortedSet.mem_union.mpr
      ((SortedSet.mem_union.mp member).imp (wf.target_mem edge) (wfOther.target_mem edge))
  · exact fun state set => SortedSet.mem_union.mpr (Or.inl (wf.start_mem state set))
  · exact fun state member => SortedSet.mem_union.mpr (Or.inl (wf.finals_mem state member))
  · intro c
    simp [wf.alphabet_iff c, wfOther.alphabet_iff c, or_and_right, exists_or]

end WellFormed

end Graph

end PatternAutomata
