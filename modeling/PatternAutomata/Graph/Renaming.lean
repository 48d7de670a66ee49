import Mathlib.Data.Set.Operations
import PatternAutomata.Graph.Basic

/-! Graphs that differ from others, or from parts of others, only in the numbers of states. -/

namespace PatternAutomata

namespace Graph

/--
Calling some states of a graph by other numbers gives another graph.

Whatever belongs to the other states of the graph is left out.
-/
structure Renaming (g : Graph) (part : Set State) (rename : State → State) (h : Graph) : Prop where
  /-- No two states get one number, and the other graph has the numbers that are given. -/
  bijective : Set.BijOn rename part {k | k ∈ h.states}
  /-- The start is carried to the start. -/
  start_eq : h.start = g.start.map rename
  /-- States are carried to final states exactly if they are final. -/
  mem_finals : ∀ p ∈ part, (p ∈ g.finals ↔ rename p ∈ h.finals)
  /-- There are edges between states exactly if they are carried to states with such edges. -/
  mem_edges : ∀ p ∈ part, ∀ q ∈ part, ∀ symbol,
    (⟨p, symbol, q⟩ ∈ g.edges ↔ ⟨rename p, symbol, rename q⟩ ∈ h.edges)

/-- All states of a graph are called by other numbers, and none is left out. -/
def WholeRenaming (g : Graph) (rename : State → State) (h : Graph) : Prop :=
  -- Also states that cannot be reached have their counterparts.
  g.Renaming {p | p ∈ g.states} rename h

end Graph

end PatternAutomata
