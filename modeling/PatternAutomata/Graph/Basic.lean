import PatternAutomata.Error
import PatternAutomata.SortedSet

/-! Finite automata as graphs of states and edges, and the operations that build and query them. -/

namespace PatternAutomata

/-- A finite automaton, possibly nondeterministic and with edges that read nothing. -/
structure Graph where
  /-- The states of the graph. -/
  states : SortedSet State := ∅
  /-- The number that the next new state gets. -/
  next : State := 0
  /-- The transitions between states. -/
  edges : SortedSet Edge := ∅
  /-- The state in which reading begins, once it is set. -/
  start : Option State := none
  /-- The states in which an input may end. -/
  finals : SortedSet State := ∅
  /-- The characters that have been put on edges. -/
  alphabet : SortedSet Char := ∅
deriving DecidableEq

namespace Graph

/-- A new state and the graph that has it. -/
def createState (g : Graph) : State × Graph :=
  -- Numbers are given out once, so a new state is never one that the graph already has.
  (g.next, { g with states := insert g.next g.states, next := g.next + 1 })

/-- Several new states, oldest first, and the graph that has them. -/
def createStates (g : Graph) : Nat → List State × Graph
  | 0 => ([], g)
  | count + 1 =>
    -- The first of the new states has the smallest number.
    let (state, g) := g.createState
    let (states, g) := g.createStates count
    (state :: states, g)

/-- Adds an edge between known states, of which the source is checked first. -/
def addEdge (g : Graph) (edge : Edge) : Except Error Graph :=
  if edge.source ∉ g.states then
    .error (.unknownState edge.source)
  else if edge.target ∉ g.states then
    .error (.unknownState edge.target)
  else
    -- Only an edge that is added puts its character into the alphabet.
    .ok { g with
      edges := insert edge g.edges
      alphabet := match edge.symbol with
        | .epsilon => g.alphabet
        | .char c => insert c g.alphabet }

/-- Makes a known state the start, in place of an earlier one. -/
def setStart (g : Graph) (state : State) : Except Error Graph :=
  -- An earlier start is replaced, and only an unknown state is refused.
  if state ∈ g.states then
    .ok { g with start := some state }
  else
    .error (.unknownState state)

/-- Makes a known state final. -/
def markFinal (g : Graph) (state : State) : Except Error Graph :=
  -- Marking a state twice makes no difference.
  if state ∈ g.states then
    .ok { g with finals := insert state g.finals }
  else
    .error (.unknownState state)

/-- Makes states final in the given order and stops at the first unknown one, which it reports. -/
def markFinals (g : Graph) : List State → Graph × Option Error
  | [] => (g, none)
  | state :: rest =>
    -- What has been marked before an unknown state stays marked.
    match g.markFinal state with
    | .ok g => g.markFinals rest
    | .error error => (g, some error)

/-- Takes over the states and edges of another graph, with which no state may be shared. -/
def merge (g other : Graph) : Except Error Graph :=
  -- States are listed in ascending order, so the smallest shared one is reported.
  match g.states.toList.find? (· ∈ other.states) with
  | some shared => .error (.stateCollision shared)
  | none =>
    .ok { g with
      states := g.states ∪ other.states
      next := max g.next other.next
      edges := g.edges ∪ other.edges
      alphabet := g.alphabet ∪ other.alphabet }

/-- The edges that leave a state, in order. -/
def outgoing (g : Graph) (state : State) : List Edge :=
  -- Edges are listed by source first, so the selection keeps the order of symbols and targets.
  g.edges.toList.filter fun edge => edge.source = state

/-- The states that edges with a symbol enter from a state, in ascending order. -/
def successors (g : Graph) (state : State) (symbol : Symbol) : List State :=
  -- Edges are listed in order, and so are the targets under one state and symbol.
  (g.edges.toList.filter fun edge => edge.source = state ∧ edge.symbol = symbol).map Edge.target

/-- The state that reading a character leads to from a state, the smallest if there are several. -/
def successor? (g : Graph) (state : State) (c : Char) : Option State :=
  -- Where there is no choice, the smallest one is the only one.
  (g.successors state (.char c)).head?

/-- The set of states that edges with a symbol enter from a state. -/
def targets (g : Graph) (state : State) (symbol : Symbol) : SortedSet State :=
  .ofList (g.successors state symbol)

/-- The set of states that edges with a character enter from any of some states. -/
def move (g : Graph) (states : SortedSet State) (c : Char) : SortedSet State :=
  -- Different edges may enter the same state, which is then counted once.
  .ofList ((g.edges.toList.filter fun edge =>
    edge.symbol = .char c ∧ edge.source ∈ states).map Edge.target)

/-- A state is final when it has been marked. -/
def isFinal (g : Graph) (state : State) : Bool := state ∈ g.finals

/-- A set of states counts as final when one of its states is. -/
def containsFinal (g : Graph) (states : SortedSet State) : Bool := states.toList.any g.isFinal

/-- Some edge reads nothing, or two edges lead from one state with one symbol to two states. -/
def isNondeterministic (g : Graph) : Bool :=
  -- A missing edge is no choice, so partial graphs may be deterministic.
  g.edges.toList.any fun edge =>
    edge.symbol = .epsilon ∨ g.edges.toList.any fun other =>
      other.source = edge.source ∧ other.symbol = edge.symbol ∧ other.target ≠ edge.target

/-- A state is a successor when some edge leads to it. -/
@[simp] theorem mem_successors {g : Graph} {p q : State} {symbol : Symbol} :
    q ∈ g.successors p symbol ↔ ⟨p, symbol, q⟩ ∈ g.edges := by
  -- The selected edges are exactly those with the wanted source and symbol.
  simp only [successors, List.mem_map, List.mem_filter, SortedSet.mem_toList, decide_eq_true_eq]
  constructor
  · rintro ⟨⟨_, _, _⟩, ⟨member, rfl, rfl⟩, rfl⟩
    exact member
  · intro member
    exact ⟨_, ⟨member, rfl, rfl⟩, rfl⟩

/-- A state is a target when some edge leads to it. -/
@[simp] theorem mem_targets {g : Graph} {p q : State} {symbol : Symbol} :
    q ∈ g.targets p symbol ↔ ⟨p, symbol, q⟩ ∈ g.edges := by
  simp [targets]

/-- A move leads to a state when an edge from one of the given states does. -/
@[simp] theorem mem_move {g : Graph} {states : SortedSet State} {c : Char} {q : State} :
    q ∈ g.move states c ↔ ∃ p ∈ states, ⟨p, .char c, q⟩ ∈ g.edges := by
  -- The selected edges are exactly those with the wanted symbol and a source among the states.
  simp only [move, SortedSet.mem_ofList, List.mem_map, List.mem_filter, SortedSet.mem_toList,
    decide_eq_true_eq]
  constructor
  · rintro ⟨⟨p, _, _⟩, ⟨member, rfl, inside⟩, rfl⟩
    exact ⟨p, inside, member⟩
  · rintro ⟨p, inside, member⟩
    exact ⟨_, ⟨member, rfl, inside⟩, rfl⟩

/-- The outgoing edges of a state are the edges that have it as their source. -/
@[simp] theorem mem_outgoing {g : Graph} {p : State} {edge : Edge} :
    edge ∈ g.outgoing p ↔ edge ∈ g.edges ∧ edge.source = p := by
  simp [outgoing]

/-- A graph leaves a choice exactly when an edge is silent or competes with another one. -/
theorem isNondeterministic_iff {g : Graph} :
    g.isNondeterministic = true ↔ ∃ edge ∈ g.edges, edge.symbol = .epsilon ∨
      ∃ other ∈ g.edges, other.source = edge.source ∧ other.symbol = edge.symbol ∧
        other.target ≠ edge.target := by
  simp [isNondeterministic]

/-- A set counts as final exactly when it shares a state with the final states. -/
@[simp] theorem containsFinal_iff {g : Graph} {states : SortedSet State} :
    g.containsFinal states = true ↔ ∃ p ∈ states, p ∈ g.finals := by
  simp [containsFinal, isFinal]

end Graph

end PatternAutomata
