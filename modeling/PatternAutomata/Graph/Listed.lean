import PatternAutomata.Graph.Contents
import PatternAutomata.Graph.Listing
import PatternAutomata.Text.Reader

/-! Reading plain text back into the states and edges of the graph that is listed there. -/

namespace PatternAutomata

/-- A line of a listing, which has a state and the edges that leave it. -/
structure Line where
  /-- The state and its marks. -/
  node : Node
  /-- What the edges read, and where they lead. -/
  edges : List (Symbol × State)
deriving DecidableEq

namespace Line

/-- The edges of a line leave the state of the line. -/
def leaving (line : Line) : List Edge :=
  -- The source is not written, since all edges of a line have the same one.
  line.edges.map fun (symbol, target) => ⟨line.node.state, symbol, target⟩

/-- The text of a line, in which the edges stand one behind the other. -/
def text (line : Line) : String :=
  -- Both marks take their place also where they are missing.
  (if line.node.begins then "->" else "  ") ++ (if line.node.final then "*" else " ") ++
    line.node.state.repr ++ ":" ++ String.join (line.leaving.map Graph.listedEdge) ++ "\n"

end Line

namespace Reader

/-- Reads an edge as it is listed behind its source. -/
def listedEdge : Reader (Symbol × State) := do
  expect " "
  let symbol ← symbol
  -- The symbol is escaped, so an arrow in it would not be taken for this one.
  expect "->"
  return (symbol, ← number)

/-- Reads the line of a state. -/
def listedState : Reader Line := do
  let begins ← choose "->" "  "
  let final ← choose "*" " "
  -- Both marks have their width also where there is nothing to mark.
  let state ← number
  expect ":"
  let edges ← many listedEdge
  expect "\n"
  return ⟨⟨state, begins, final⟩, edges⟩

end Reader

/-- What can be seen of a graph that is listed in some lines. -/
def Contents.ofLines (lines : List Line) : Contents :=
  .of (lines.map Line.node) (lines.flatMap Line.leaving)

namespace Graph

/-- The lines of a text in which a graph is listed. -/
def ofListing (text : String) : Option (List Line) := Reader.readAll (.many .listedState) text

/-- The line of a state in the listing of a graph. -/
def line (g : Graph) (state : State) : Line :=
  ⟨g.node state, (g.outgoing state).map fun edge => (edge.symbol, edge.target)⟩

/-- The edges from the first one that is not in front of a state, as long as they leave it. -/
def scanned (g : Graph) (state : State) : List Edge :=
  -- The first edge that leaves the state reads nothing, or could stand behind one that does.
  (g.edges.toList.dropWhile fun edge =>
    (compare edge.source state).then (compare edge.symbol .epsilon) = .lt).takeWhile
      fun edge => edge.source = state

end Graph

end PatternAutomata
