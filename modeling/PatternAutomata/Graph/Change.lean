import PatternAutomata.Graph.Basic

/-! Changes to a graph as values, of which whole histories can be made. -/

namespace PatternAutomata

/-- Something that can be done to a graph. -/
inductive Change where
  /-- Create some new states. -/
  | createStates (count : Nat)
  /-- Add an edge. -/
  | addEdge (edge : Edge)
  /-- Make a state the start. -/
  | setStart (state : State)
  /-- Make a state final. -/
  | markFinal (state : State)
  /-- Make several states final, one after the other. -/
  | markFinals (states : List State)
  /-- Take over the states and edges of another graph. -/
  | merge (other : Graph)
deriving DecidableEq

namespace Graph

/-- Goes over to a changed graph if there is one, and stays with this one otherwise. -/
def adopt (g : Graph) : Except Error Graph → Graph × Except Error (List State)
  | .ok changed => (changed, .ok [])
  -- Whoever holds the graph keeps the one from before.
  | .error error => (g, .error error)

/-- Does one thing to a graph and gives the states that it created, or tells why it failed. -/
def change (g : Graph) : Change → Graph × Except Error (List State)
  | .createStates count =>
    let (states, changed) := g.createStates count
    (changed, .ok states)
  | .addEdge edge => g.adopt (g.addEdge edge)
  | .setStart state => g.adopt (g.setStart state)
  | .markFinal state => g.adopt (g.markFinal state)
  | .markFinals states =>
    -- The states before the first unknown one stay final even if the change fails.
    match g.markFinals states with
    | (changed, none) => (changed, .ok [])
    | (changed, some error) => (changed, .error error)
  | .merge other => g.adopt (g.merge other)

end Graph

end PatternAutomata
