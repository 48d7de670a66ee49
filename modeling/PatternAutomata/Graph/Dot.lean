import PatternAutomata.Drawing
import PatternAutomata.Graph.Basic
import PatternAutomata.Text.Escape

/-! Graphs as drawings, of which a writer is called to write one statement after the other. -/

namespace PatternAutomata

namespace Graph

open Drawing

/-- The name of a state in a drawing. -/
def nodeName (state : State) : String := "node_" ++ state.repr

/-- What is set on a state that is drawn as a thick circle in a color. -/
def highlights (color : Color) : List Setting :=
  -- A pen of this width is three times as wide as usual.
  [.circle, .color color, .penWidth 3]

/-- The calls for a state, where the start is drawn in blue and then final states in red. -/
def stateCalls (g : Graph) (state : State) : List Call :=
  [.node (nodeName state), .setOnNode (.label state.repr)] ++
    -- A state that is both is given both colors, and everything else twice.
    (if g.start = some state then (highlights .blue).map .setOnNode else []) ++
    (if g.isFinal state then (highlights .red).map .setOnNode else [])

/-- The calls for an edge. -/
def edgeCalls (edge : Edge) : List Call :=
  -- The text of a symbol escapes quotes, since a writer does not.
  [.edge (nodeName edge.source) (nodeName edge.target), .attributes,
    .setOnEdge (.label edge.symbol.text)]

/-- The calls for a drawing from left to right under a label. -/
def drawingCalls (g : Graph) (label : String) : List Call :=
  -- All states come before all edges.
  [.setPrettyPrint true, .digraph, .setOnDrawing (.label label), .setOnDrawing .leftToRight] ++
    g.states.toList.flatMap g.stateCalls ++ g.edges.toList.flatMap edgeCalls

/-- The drawing that a writer makes of a graph. -/
def render (g : Graph) (writer : Writer) (label : String) : String :=
  writer.write (g.drawingCalls label)

/-- The drawing of a graph as it is usually written. -/
def dot (g : Graph) (label : String) : String := g.render .standard label

end Graph

end PatternAutomata
