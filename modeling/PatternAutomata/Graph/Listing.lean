import PatternAutomata.Graph.Basic
import PatternAutomata.Text.Escape

/-! Graphs as plain text, with one line for each state and the edges that leave it. -/

namespace PatternAutomata

namespace Graph

/-- An edge as listed behind its source. -/
def listedEdge (edge : Edge) : String :=
  -- The source is not repeated, since it begins the line.
  " " ++ edge.symbol.text ++ "->" ++ edge.target.repr

/-- The line of a state, on which an arrow marks the start and a star marks final states. -/
def listedState (g : Graph) (state : State) : String :=
  -- Both marks take their place also where they are missing.
  (if g.start = some state then "->" else "  ") ++ (if g.isFinal state then "*" else " ") ++
    state.repr ++ ":" ++ String.join ((g.outgoing state).map listedEdge) ++ "\n"

/-- The lines of all states in ascending order. -/
def listing (g : Graph) : String :=
  -- Every line ends with its own line break.
  String.join (g.states.toList.map g.listedState)

end Graph

end PatternAutomata
