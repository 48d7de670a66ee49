import PatternAutomata.Graph.WellFormed
import PatternAutomata.Proofs.Outcome

/-! What the operations on graphs give when the states that they name are known. -/

namespace PatternAutomata

namespace Graph

/-- A graph with one more edge, whose character joins the alphabet. -/
def withEdge (g : Graph) (edge : Edge) : Graph :=
  { g with
    edges := insert edge g.edges
    -- A silent edge brings no character along.
    alphabet := match edge.symbol with
      | .epsilon => g.alphabet
      | .char c => insert c g.alphabet }

/-- The edges are those from before and the new one. -/
@[simp] theorem mem_edges_withEdge {g : Graph} {edge other : Edge} :
    other ∈ (g.withEdge edge).edges ↔ other = edge ∨ other ∈ g.edges :=
  SortedSet.mem_insert

/-- An edge between known states is added. -/
theorem addEdge_eq {g : Graph} {edge : Edge} (source : edge.source ∈ g.states)
    (target : edge.target ∈ g.states) : g.addEdge edge = .ok (g.withEdge edge) := by
  -- Both checks pass, and then nothing can fail.
  rw [addEdge, if_neg (not_not_intro source), if_neg (not_not_intro target)]
  rfl

/-- A graph with several more edges. -/
def withEdges (g : Graph) (edges : List Edge) : Graph := edges.foldl withEdge g

/-- Edges may be added in two rounds. -/
theorem withEdges_append (g : Graph) (first second : List Edge) :
    g.withEdges (first ++ second) = (g.withEdges first).withEdges second :=
  List.foldl_append

section WithEdges

variable (g : Graph) (edges : List Edge)

/-- More edges need no other states. -/
@[simp] theorem states_withEdges : (g.withEdges edges).states = g.states := by
  induction edges generalizing g with
  | nil => rfl
  | cons edge rest ih => exact ih (g.withEdge edge)

/-- Edges take no numbers of states. -/
@[simp] theorem next_withEdges : (g.withEdges edges).next = g.next := by
  induction edges generalizing g with
  | nil => rfl
  | cons edge rest ih => exact ih (g.withEdge edge)

/-- The start stays when edges are added. -/
@[simp] theorem start_withEdges : (g.withEdges edges).start = g.start := by
  induction edges generalizing g with
  | nil => rfl
  | cons edge rest ih => exact ih (g.withEdge edge)

/-- Final states stay when edges are added. -/
@[simp] theorem finals_withEdges : (g.withEdges edges).finals = g.finals := by
  induction edges generalizing g with
  | nil => rfl
  | cons edge rest ih => exact ih (g.withEdge edge)

variable {g edges}

/-- The edges are those from before and the new ones. -/
@[simp] theorem mem_edges_withEdges {edge : Edge} :
    edge ∈ (g.withEdges edges).edges ↔ edge ∈ g.edges ∨ edge ∈ edges := by
  induction edges generalizing g with
  | nil => simp [withEdges]
  | cons first rest ih =>
    -- The first edge is added before the induction goes on with the rest.
    have step : edge ∈ (g.withEdges (first :: rest)).edges ↔
        edge ∈ (g.withEdge first).edges ∨ edge ∈ rest := ih
    rw [step, mem_edges_withEdge, List.mem_cons, or_comm (a := edge = first), or_assoc]

/-- Edges between known states are added one after the other. -/
theorem foldlM_addEdge (known : ∀ edge ∈ edges, edge.source ∈ g.states ∧ edge.target ∈ g.states) :
    edges.foldlM addEdge g = .ok (g.withEdges edges) := by
  -- Adding an edge leaves the states as they are, so those behind it can be added as well.
  induction edges generalizing g with
  | nil => rfl
  | cons edge rest ih =>
    obtain ⟨source, target⟩ := known edge List.mem_cons_self
    rw [List.foldlM_cons, addEdge_eq source target, Outcome.ok_bind]
    exact ih fun later member => known later (List.mem_cons_of_mem _ member)

/-- Edges between known states disturb nothing. -/
theorem WellFormed.withEdges (wf : g.WellFormed)
    (known : ∀ edge ∈ edges, edge.source ∈ g.states ∧ edge.target ∈ g.states) :
    (g.withEdges edges).WellFormed :=
  Outcome.foldlM_preserves (fun _ _ _ wf added => wf.addEdge added) wf (foldlM_addEdge known)

end WithEdges

/-- Well-formed graphs that agree in all other parts agree in their alphabets. -/
theorem WellFormed.ext {g h : Graph} (wf : g.WellFormed) (wf' : h.WellFormed)
    (states : g.states = h.states) (next : g.next = h.next) (edges : g.edges = h.edges)
    (start : g.start = h.start) (finals : g.finals = h.finals) : g = h := by
  -- The alphabet has the characters that stand on edges.
  have alphabet : g.alphabet = h.alphabet := by
    ext c
    rw [wf.alphabet_iff, wf'.alphabet_iff, edges]
  cases g
  cases h
  simp_all

/-- A known state becomes the start. -/
theorem setStart_eq {g : Graph} {state : State} (known : state ∈ g.states) :
    g.setStart state = .ok { g with start := some state } := by
  rw [setStart, if_pos known]

/-- A known state becomes final. -/
theorem markFinal_eq {g : Graph} {state : State} (known : state ∈ g.states) :
    g.markFinal state = .ok { g with finals := insert state g.finals } := by
  rw [markFinal, if_pos known]

/-- Graphs are merged part by part when they share no state. -/
theorem merge_eq {g other : Graph} (disjoint : ∀ state ∈ g.states, state ∉ other.states) :
    g.merge other = .ok { g with
      states := g.states ∪ other.states
      next := max g.next other.next
      edges := g.edges ∪ other.edges
      alphabet := g.alphabet ∪ other.alphabet } := by
  -- The search for a shared state finds none.
  have unshared : g.states.toList.find? (· ∈ other.states) = none := by
    rw [List.find?_eq_none]
    intro state member
    simpa using disjoint state member
  rw [merge, unshared]

/-- The numbers of new states follow each other from the next number of the graph on. -/
theorem createStates_numbers (g : Graph) (count : Nat) :
    (g.createStates count).1 = List.range' g.next count := by
  -- The first of the new states comes before those that the rest of the call creates.
  induction count generalizing g with
  | zero => rfl
  | succ count ih =>
    rw [List.range'_succ]
    exact congrArg (g.next :: ·) (ih g.createState.2)

/-- Creating states moves the next number on past them. -/
theorem createStates_next (g : Graph) (count : Nat) :
    (g.createStates count).2.next = g.next + count := by
  -- Each state moves the number on by one, and the rest go on from there.
  induction count generalizing g with
  | zero => rfl
  | succ count ih =>
    show (g.createState.2.createStates count).2.next = g.next + (count + 1)
    rw [ih g.createState.2]
    show g.next + 1 + count = g.next + (count + 1)
    grind

/-- Creating states adds exactly the numbers that have been given out. -/
theorem mem_createStates {g : Graph} {count : Nat} {state : State} :
    state ∈ (g.createStates count).2.states ↔
      state ∈ g.states ∨ g.next ≤ state ∧ state < g.next + count := by
  induction count generalizing g with
  | zero =>
    show state ∈ g.states ↔ _
    grind
  | succ count ih =>
    show state ∈ (g.createState.2.createStates count).2.states ↔ _
    have old : state ∈ g.createState.2.states ↔ state = g.next ∨ state ∈ g.states :=
      SortedSet.mem_insert
    have moved : g.createState.2.next = g.next + 1 := rfl
    rw [ih, old, moved]
    -- The number of the first new state is taken from one side of the split to the other.
    grind

/-- Creating states leaves all other parts of a graph alone. -/
theorem createStates_frame (g : Graph) (count : Nat) :
    (g.createStates count).2.edges = g.edges ∧ (g.createStates count).2.start = g.start ∧
      (g.createStates count).2.finals = g.finals ∧
      (g.createStates count).2.alphabet = g.alphabet := by
  -- Each new state leaves all of this as it was.
  induction count generalizing g with
  | zero => exact ⟨rfl, rfl, rfl, rfl⟩
  | succ count ih => exact ih g.createState.2

end Graph

end PatternAutomata
