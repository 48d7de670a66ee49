import PatternAutomata.Graph.Contents
import PatternAutomata.Graph.Dot
import PatternAutomata.Text.Reader

/-! Lines of drawings, and reading a drawing back into the states and edges it shows. -/

namespace PatternAutomata

/-- A line with a text that stands between quotes. -/
structure QuotedLine where
  /-- What stands in front of the quotes. -/
  before : List Char
  /-- What stands between the quotes. -/
  text : List Char
  /-- What stands behind the quotes. -/
  after : List Char

/-- The characters of a line up to its break. -/
def QuotedLine.chars (line : QuotedLine) : List Char :=
  -- The text is what stands between the first quote and the last one.
  line.before ++ '"' :: line.text ++ '"' :: line.after ++ ['\n']

namespace Graph

open Drawing

/-- The statement for a state. -/
def stateStatement (g : Graph) (state : State) : Statement :=
  .node (nodeName state) (.label state.repr ::
    -- What marks the start stands in front of what marks a final state.
    (if g.start = some state then highlights .blue else []) ++
    (if g.isFinal state then highlights .red else []))

/-- The statement for an edge. -/
def edgeStatement (edge : Edge) : Statement :=
  .edge (nodeName edge.source) (nodeName edge.target) [.label edge.symbol.text]

/-- The statements of a drawing under a label. -/
def statements (g : Graph) (label : String) : List Statement :=
  -- What concerns the drawing as a whole comes first.
  [.overall (.label label), .overall .leftToRight] ++ g.states.toList.map g.stateStatement ++
    g.edges.toList.map edgeStatement

/-- The further settings of a state that is drawn as a thick circle in a color. -/
def circled (color : Color) : String := ", shape=circle, color=" ++ color.name ++ ", penwidth=3"

/-- The line for a state. -/
def drawnState (g : Graph) (state : State) : String :=
  "  " ++ nodeName state ++ " [label=\"" ++ state.repr ++ "\"" ++
    (if g.start = some state then circled .blue else "") ++
    (if g.isFinal state then circled .red else "") ++ "];\n"

/-- The line for an edge. -/
def drawnEdge (edge : Edge) : String :=
  "  " ++ nodeName edge.source ++ " -> " ++ nodeName edge.target ++
    " [label=\"" ++ edge.symbol.text ++ "\"];\n"

/-- What stands in front of the lines for states and edges. -/
def drawingHead (label : String) : String :=
  -- The label stands between quotes as it is, whatever it has in it.
  "digraph \x7b\n" ++ "  label=\"" ++ label ++ "\";\n" ++ "  rankdir=LR;\n"

/-- The line for a state, taken apart. -/
def stateLine (g : Graph) (state : State) : QuotedLine where
  before := ("  " ++ nodeName state ++ " [label=").toList
  text := state.repr.toList
  -- No quotes stand behind the label, since the other settings are bare words.
  after := ((if g.start = some state then circled .blue else "") ++
    (if g.isFinal state then circled .red else "") ++ "];").toList

/-- The line for an edge, taken apart. -/
def edgeLine (edge : Edge) : QuotedLine where
  before := ("  " ++ nodeName edge.source ++ " -> " ++ nodeName edge.target ++ " [label=").toList
  text := edge.symbol.text.toList
  after := "];".toList

/-- The lines for all states, and then those for all edges. -/
def lines (g : Graph) : List QuotedLine :=
  -- An edge is drawn once both of its ends have been.
  g.states.toList.map g.stateLine ++ g.edges.toList.map edgeLine

end Graph

namespace Reader

/-- Reads a state by its name. -/
def nodeName : Reader State := do
  expect "node_"
  number

/-- Reads the line for a state, which is labelled by its number. -/
def drawnState : Reader Node := do
  expect "  "
  let state ← nodeName
  expect " [label=\""
  -- The label repeats the number in the name, so that nothing new is read from it.
  expect state.repr
  expect "\""
  let begins ← choose (Graph.circled .blue) ""
  let final ← choose (Graph.circled .red) ""
  expect "];\n"
  return ⟨state, begins, final⟩

/-- Reads the line for an edge. -/
def drawnEdge : Reader Edge := do
  expect "  "
  let source ← nodeName
  expect " -> "
  let target ← nodeName
  expect " [label=\""
  let symbol ← symbol
  expect "\"];\n"
  return ⟨source, symbol, target⟩

end Reader

namespace Graph

/-- Reads a drawing under a label that is known. -/
def drawing (label : String) : Reader Contents := do
  .expect (drawingHead label)
  -- The lines for states end where the first edge is drawn.
  let nodes ← .many .drawnState
  let edges ← .many .drawnEdge
  .expect "\x7d\n"
  return .of nodes edges

/-- What can be seen of a graph in a text that draws the graph under a label. -/
def ofDot (label text : String) : Option Contents := Reader.readAll (drawing label) text

end Graph

end PatternAutomata
