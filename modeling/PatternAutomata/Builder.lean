import PatternAutomata.Graph.Basic

/-! Automata for characters, and for combined patterns by joining automata with silent edges. -/

namespace PatternAutomata

/-- The source of the state numbers of all automata that are to be combined with each other. -/
structure Builder where
  /-- The number from which new states are numbered. -/
  next : State := 0
deriving DecidableEq

namespace Graph

/-- The start state, which a graph must have to be combined with others. -/
def startState (g : Graph) : Except Error State :=
  -- Graphs that were built have a start, but others need not have one.
  match g.start with
  | some state => .ok state
  | none => .error .missingStart

/-- Adds silent edges from each of some states to one state. -/
def addSilentEdges (g : Graph) (sources : SortedSet State) (target : State) : Except Error Graph :=
  -- States are taken in ascending order, and the loop ends at the first edge that is refused.
  sources.toList.foldlM (fun g source => g.addEdge ⟨source, .epsilon, target⟩) g

end Graph

namespace Builder

/-- A graph without states, whose first new state takes the next number. -/
def blank (builder : Builder) : Graph :=
  -- Numbers below the counter belong to automata that were handed out before.
  { next := builder.next }

/-- Hands out a finished graph and moves on past the numbers of its states. -/
def release (builder : Builder) (g : Graph) : Graph × Builder :=
  -- A graph from elsewhere may have carried its own numbers far beyond the counter.
  (g, { next := max builder.next g.next })

/-- An automaton for exactly one character. -/
def literal (builder : Builder) (c : Char) : Except Error (Graph × Builder) := do
  -- One edge leads from a new start to a new final state.
  let (start, g) := builder.blank.createState
  let (final, g) := g.createState
  let g ← g.addEdge ⟨start, .char c, final⟩
  let g ← g.setStart start
  let g ← g.markFinal final
  return builder.release g

/-- An automaton for an input of the left one followed by an input of the right one. -/
def concat (builder : Builder) (left right : Graph) : Except Error (Graph × Builder) := do
  let leftStart ← left.startState
  let rightStart ← right.startState
  let g ← builder.blank.merge left
  let g ← g.merge right
  -- Where the left automaton may end, the right one begins.
  let g ← g.addSilentEdges left.finals rightStart
  let g ← g.setStart leftStart
  let g ← right.finals.toList.foldlM Graph.markFinal g
  return builder.release g

/-- An automaton for the inputs of either of two. -/
def union (builder : Builder) (left right : Graph) : Except Error (Graph × Builder) := do
  let leftStart ← left.startState
  let rightStart ← right.startState
  let g ← builder.blank.merge left
  let g ← g.merge right
  -- A new start branches into both automata, and both lead on to a new final state.
  let (start, g) := g.createState
  let (final, g) := g.createState
  let g ← g.addEdge ⟨start, .epsilon, leftStart⟩
  let g ← g.addEdge ⟨start, .epsilon, rightStart⟩
  let g ← g.addSilentEdges left.finals final
  let g ← g.addSilentEdges right.finals final
  let g ← g.setStart start
  let g ← g.markFinal final
  return builder.release g

/-- An automaton for repeated inputs of another, and for the empty input if that is allowed. -/
def repetition (builder : Builder) (inner : Graph) (allowEmpty : Bool) :
    Except Error (Graph × Builder) := do
  let innerStart ← inner.startState
  let g ← builder.blank.merge inner
  -- A new start leads into the inner automaton, or past it if nothing needs to be read.
  let (start, g) := g.createState
  let (final, g) := g.createState
  let g ← g.addEdge ⟨start, .epsilon, innerStart⟩
  let g ← (if allowEmpty then g.addEdge ⟨start, .epsilon, final⟩ else .ok g)
  -- Where the inner automaton may end, it may begin again or be left.
  let g ← g.addSilentEdges inner.finals innerStart
  let g ← g.addSilentEdges inner.finals final
  let g ← g.setStart start
  let g ← g.markFinal final
  return builder.release g

/-- An automaton for any number of inputs of another, one after the other. -/
def star (builder : Builder) (inner : Graph) : Except Error (Graph × Builder) :=
  -- The inner automaton may be passed by.
  builder.repetition inner true

/-- An automaton for one or more inputs of another, one after the other. -/
def plus (builder : Builder) (inner : Graph) : Except Error (Graph × Builder) :=
  -- The inner automaton has to be passed through at least once.
  builder.repetition inner false

end Builder

end PatternAutomata
