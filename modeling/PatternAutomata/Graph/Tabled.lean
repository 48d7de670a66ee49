import PatternAutomata.Graph.Edit
import PatternAutomata.Graph.Table

/-! Graphs whose edges are kept in a table as well, which every call on a graph carries along. -/

namespace PatternAutomata

/-- A graph together with a table of its edges. -/
structure Tabled where
  /-- The graph. -/
  graph : Graph
  /-- The targets of its edges, under the states that they leave and the symbols they read. -/
  table : Table := ∅

namespace Tabled

variable {α : Type}

/-- Makes steps on the graph without looking at the table. -/
def onGraph (edit : Edit α) : Steps Tabled α := do
  let (changed, outcome) := edit.perform (← get).graph
  -- What the steps have written stays, whether or not they have failed.
  modify fun tabled => { tabled with graph := changed }
  match outcome with
  | .ok value => return value
  | .error error => throw error

/-- Takes the next number for a new state, which no edge leaves. -/
def createState : Steps Tabled State := onGraph .createState

/-- Puts an edge into the table once both of its ends are known. -/
def addEdge (edge : Edge) : Steps Tabled Unit := do
  onGraph (.addEdge edge)
  -- This is not reached if the graph refuses the edge.
  modify fun tabled => { tabled with table := tabled.table.add edge }

/-- Checks a state before it is written as the start. -/
def setStart (state : State) : Steps Tabled Unit := onGraph (.setStart state)

/-- Checks a state before it is written as a final one. -/
def markFinal (state : State) : Steps Tabled Unit := onGraph (.markFinal state)

/-- Takes over the keys of another table once it is known that no state is shared. -/
def merge (other : Tabled) : Steps Tabled Unit := do
  onGraph (.merge other.graph)
  -- This is not reached if the graph refuses to merge.
  modify fun tabled => { tabled with table := tabled.table.extend other.table }

/-- A graph and its table are what calls have left, some of which may have been refused. -/
inductive Made : Tabled → Prop where
  /-- A graph begins without states, and its table without keys. -/
  | blank (next : State) : Made { graph := { next } }
  /-- A state is created. -/
  | createState {tabled : Tabled} (made : Made tabled) : Made (createState.perform tabled).1
  /-- It is tried to add an edge. -/
  | addEdge {tabled : Tabled} (made : Made tabled) (edge : Edge) :
    Made ((addEdge edge).perform tabled).1
  /-- It is tried to set the start. -/
  | setStart {tabled : Tabled} (made : Made tabled) (state : State) :
    Made ((setStart state).perform tabled).1
  /-- It is tried to make a state final. -/
  | markFinal {tabled : Tabled} (made : Made tabled) (state : State) :
    Made ((markFinal state).perform tabled).1
  /-- It is tried to merge another graph, which has been made as well. -/
  | merge {tabled other : Tabled} (made : Made tabled) (madeOther : Made other) :
    Made ((merge other).perform tabled).1

/-- What is true of a graph without states and its table, and stays so as calls succeed. -/
structure Keeps (P : Graph → Table → Prop) : Prop where
  /-- It is true without states and without keys. -/
  blank : ∀ next, P { next } ∅
  /-- A new state is no reason for a key. -/
  createState : ∀ {g : Graph} {t : Table}, P g t → P g.createState.2 t
  /-- A new edge comes into the graph and into the table. -/
  addEdge : ∀ {g changed : Graph} {t : Table} {edge : Edge}, P g t →
    g.addEdge edge = .ok changed → P changed (t.add edge)
  /-- A new start is no reason for a key. -/
  setStart : ∀ {g changed : Graph} {t : Table} {state : State}, P g t →
    g.setStart state = .ok changed → P changed t
  /-- A new final state is no reason for a key. -/
  markFinal : ∀ {g changed : Graph} {t : Table} {state : State}, P g t →
    g.markFinal state = .ok changed → P changed t
  /-- Another graph of which it is true brings its edges along, and its table the keys. -/
  merge : ∀ {g other merged : Graph} {t u : Table}, P g t → P other u →
    g.merge other = .ok merged → P merged (t.extend u)

end Tabled

/-- A graph may have been made so that its edges are in this table. -/
def Graph.Made (g : Graph) (t : Table) : Prop := Tabled.Made { graph := g, table := t }

end PatternAutomata
