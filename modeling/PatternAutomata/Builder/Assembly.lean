import PatternAutomata.Builder.Operation
import PatternAutomata.Graph.Edit

/-! The operations of a builder written out step by step, as they read and write its counter. -/

namespace PatternAutomata

/-- Steps that read and write a builder. -/
abbrev Assembly (α : Type) := Steps Builder α

namespace Assembly

variable {α : Type}

/-- Begins a graph without states, whose first new state takes the next number. -/
def blank : Assembly Graph := do
  -- The builder does not move on before the graph is handed out.
  return { next := (← get).next }

/-- Makes steps on a graph that nothing else has, and which is lost if they fail. -/
def on (g : Graph) (edit : Edit α) : Assembly (α × Graph) :=
  match edit.perform g with
  | (changed, .ok value) => return (value, changed)
  -- The graph is lost, and the builder has not been written at all.
  | (_, .error error) => throw error

/-- Makes steps that give nothing on a graph that nothing else has. -/
def edit (g : Graph) (steps : Edit Unit) : Assembly Graph := do
  -- What the steps give is of no interest, and the graph goes on.
  let ((), changed) ← on g steps
  return changed

/-- Hands out a finished graph, and moves on past the numbers of its states. -/
def release (g : Graph) : Assembly Graph := do
  -- This is the only step that writes the builder.
  modify fun builder => { next := max builder.next g.next }
  return g

/-- Asks for the start of a graph that is to be combined with others. -/
def startState (g : Graph) : Assembly State :=
  -- This comes before anything is merged.
  match g.start with
  | some state => return state
  | none => throw .missingStart

/-- The steps for an automaton for exactly one character. -/
def literal (c : Char) : Assembly Graph := do
  let g ← blank
  let (start, g) ← on g .createState
  let (final, g) ← on g .createState
  let g ← edit g (.addEdge ⟨start, .char c, final⟩)
  let g ← edit g (.setStart start)
  let g ← edit g (.markFinal final)
  -- Nothing above can fail, since both states have just been created.
  release g

/-- The steps for an automaton for one input after another. -/
def concat (left right : Graph) : Assembly Graph := do
  let leftStart ← startState left
  let rightStart ← startState right
  let g ← blank
  let g ← edit g (.merge left)
  let g ← edit g (.merge right)
  -- A silent edge for each final state of the left graph leads to the start of the right one.
  let g ← edit g (left.finals.toList.forM fun state => .addEdge ⟨state, .epsilon, rightStart⟩)
  let g ← edit g (.setStart leftStart)
  let g ← edit g (.markFinals right.finals.toList)
  release g

/-- The steps for an automaton for either of two inputs. -/
def union (left right : Graph) : Assembly Graph := do
  let leftStart ← startState left
  let rightStart ← startState right
  -- The final states of both graphs are collected before these are merged.
  let finals := left.finals.toList ++ right.finals.toList
  let g ← blank
  let g ← edit g (.merge left)
  let g ← edit g (.merge right)
  let (start, g) ← on g .createState
  let (final, g) ← on g .createState
  let g ← edit g (.addEdge ⟨start, .epsilon, leftStart⟩)
  let g ← edit g (.addEdge ⟨start, .epsilon, rightStart⟩)
  let g ← edit g (finals.forM fun state => .addEdge ⟨state, .epsilon, final⟩)
  let g ← edit g (.setStart start)
  let g ← edit g (.markFinal final)
  release g

/-- The steps for an automaton for repeated inputs. -/
def repetition (inner : Graph) (allowEmpty : Bool) : Assembly Graph := do
  let innerStart ← startState inner
  let g ← blank
  let g ← edit g (.merge inner)
  let (start, g) ← on g .createState
  let (final, g) ← on g .createState
  let g ← edit g (.addEdge ⟨start, .epsilon, innerStart⟩)
  let g ← (if allowEmpty then edit g (.addEdge ⟨start, .epsilon, final⟩) else pure g)
  -- Each final state leads back to the start and on to the end before the next one does.
  let g ← edit g (inner.finals.toList.forM fun state => do
    .addEdge ⟨state, .epsilon, innerStart⟩
    .addEdge ⟨state, .epsilon, final⟩)
  let g ← edit g (.setStart start)
  let g ← edit g (.markFinal final)
  release g

/-- The steps for an automaton for any number of inputs of another. -/
def star (inner : Graph) : Assembly Graph := repetition inner true

/-- The steps for an automaton for one or more inputs of another. -/
def plus (inner : Graph) : Assembly Graph := repetition inner false

/-- The steps of an operation, which give the graph that it builds. -/
def ofOperation : Builder.Operation Graph → Assembly Graph
  | .literal c => literal c
  | .concat left right => concat left right
  | .union left right => union left right
  | .star inner => star inner
  | .plus inner => plus inner

end Assembly

end PatternAutomata
