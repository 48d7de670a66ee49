import PatternAutomata.Graph.WellFormed

/-! What a text can show of a graph: its states with their marks, and its edges. -/

namespace PatternAutomata

/-- A state and how it is marked. -/
structure Node where
  /-- The state. -/
  state : State
  /-- Reading begins in the state. -/
  begins : Bool
  /-- Reading may end in the state. -/
  final : Bool
deriving DecidableEq

/-- What can be seen of a graph, which is all but the number of a new state and the alphabet. -/
structure Contents where
  /-- The states. -/
  states : SortedSet State
  /-- The state in which reading begins, if there is one. -/
  start : Option State
  /-- The states in which reading may end. -/
  finals : SortedSet State
  /-- The edges. -/
  edges : SortedSet Edge
deriving DecidableEq

/-- What nodes and edges in any order make up, where the first node that is marked begins. -/
def Contents.of (nodes : List Node) (edges : List Edge) : Contents where
  states := .ofList (nodes.map Node.state)
  -- At most one state is marked as the start, so that the first one found is the start.
  start := (nodes.find? Node.begins).map Node.state
  finals := .ofList ((nodes.filter Node.final).map Node.state)
  edges := .ofList edges

namespace Graph

/-- A state with the marks that it has in a graph. -/
def node (g : Graph) (state : State) : Node := ⟨state, g.start = some state, g.isFinal state⟩

/-- What can be seen of a graph. -/
def contents (g : Graph) : Contents := ⟨g.states, g.start, g.finals, g.edges⟩

/-- The same can be seen of graphs that agree in their states, starts, final states and edges. -/
theorem contents_eq_iff {g h : Graph} : h.contents = g.contents ↔
    h.states = g.states ∧ h.start = g.start ∧ h.finals = g.finals ∧ h.edges = g.edges := by
  rw [contents, contents, Contents.mk.injEq]

/-- The first state that is marked as the start is the start, if the start is known. -/
theorem WellFormed.find?_start {g : Graph} (wf : g.WellFormed) :
    g.states.toList.find? (fun state => decide (g.start = some state)) = g.start := by
  cases found : g.states.toList.find? (fun state => decide (g.start = some state)) with
  | some state =>
    have marked := List.find?_some found
    exact (of_decide_eq_true marked).symm
  | none =>
    -- A start would have been found among the states.
    have unmarked := List.find?_eq_none.mp found
    cases begins : g.start with
    | none => rfl
    | some state =>
      exact absurd (decide_eq_true begins) (unmarked state (wf.start_mem state begins))

/-- The nodes of a well-formed graph and its edges, in any order, make up what can be seen. -/
theorem WellFormed.contents_of {g : Graph} (wf : g.WellFormed) {edges : List Edge}
    (same : ∀ edge, edge ∈ edges ↔ edge ∈ g.edges) :
    Contents.of (g.states.toList.map g.node) edges = g.contents := by
  have states : SortedSet.ofList ((g.states.toList.map g.node).map Node.state) = g.states := by
    ext state
    simp [node]
  -- Start and final states are among the states, and so are found in the records of these.
  have start : ((g.states.toList.map g.node).find? Node.begins).map Node.state = g.start := by
    rw [List.find?_map, Option.map_map]
    exact (Option.map_id' ..).trans wf.find?_start
  have finals : SortedSet.ofList (((g.states.toList.map g.node).filter Node.final).map Node.state) =
      g.finals := by
    ext state
    rw [List.filter_map, List.map_map, SortedSet.mem_ofList, List.mem_map]
    simpa [node, isFinal] using wf.finals_mem state
  have edges : SortedSet.ofList edges = g.edges := by
    ext edge
    rw [SortedSet.mem_ofList, same]
  rw [Contents.of, contents, states, start, finals, edges]

end Graph

end PatternAutomata
