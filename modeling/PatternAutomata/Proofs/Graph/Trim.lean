import PatternAutomata.Graph.Path

/-! States that take part in the spelling of some input, and graphs that have no others. -/

namespace PatternAutomata

namespace Graph

/-- Some input leads from the start to a state. -/
def Accessible (g : Graph) (p : State) : Prop :=
  -- The start itself is reached without reading anything.
  ∃ start input, g.start = some start ∧ g.Path start input p

/-- Some input leads from a state to a final one. -/
def Coaccessible (g : Graph) (p : State) : Prop :=
  -- A final state has nothing left to read.
  ∃ input, ∃ final ∈ g.finals, g.Path p input final

/-- A graph is productive when each of its states reaches a final one. -/
def Productive (g : Graph) : Prop := ∀ p ∈ g.states, g.Coaccessible p

/-- A graph with a start is trim when none of its states could be left out. -/
structure Trim (g : Graph) : Prop where
  /-- The graph has a start. -/
  begins : ∃ start, g.start = some start
  /-- Every state is reached from the start. -/
  accessible : ∀ p ∈ g.states, g.Accessible p
  /-- Every state reaches a final one. -/
  productive : g.Productive

variable {g part : Graph} {p q : State} {input : List Char}

/-- The start is reached without reading. -/
theorem accessible_start (begins : g.start = some p) : g.Accessible p :=
  ⟨p, [], begins, Path.here p⟩

/-- A final state is reached without reading. -/
theorem coaccessible_final (ends : p ∈ g.finals) : g.Coaccessible p :=
  ⟨[], p, ends, Path.here p⟩

/-- What is reached can be gone on from. -/
theorem Accessible.append (reached : g.Accessible p) (path : g.Path p input q) :
    g.Accessible q := by
  obtain ⟨start, first, begins, head⟩ := reached
  -- The path goes on where the one from the start ends.
  exact ⟨start, first ++ input, begins, head.append path⟩

/-- A final state is also reached by way of a state that reaches one. -/
theorem Coaccessible.prepend (reaches : g.Coaccessible q) (path : g.Path p input q) :
    g.Coaccessible p := by
  obtain ⟨second, final, ends, tail⟩ := reaches
  -- The path leads to where the one to a final state begins.
  exact ⟨input ++ second, final, ends, path.append tail⟩

/-- What is reached in a part is reached in the whole if the start of the part is. -/
theorem Accessible.embed (reached : part.Accessible p) (more : ∀ edge ∈ part.edges, edge ∈ g.edges)
    (enter : ∀ start, part.start = some start → g.Accessible start) : g.Accessible p := by
  obtain ⟨start, input, begins, path⟩ := reached
  -- The path from the start of the part is one of the whole graph as well.
  exact (enter start begins).append (path.mono more)

/-- What reaches a final state in a part does so in the whole if the final states of the part do. -/
theorem Coaccessible.embed (reaches : part.Coaccessible p)
    (more : ∀ edge ∈ part.edges, edge ∈ g.edges)
    (leave : ∀ final ∈ part.finals, g.Coaccessible final) : g.Coaccessible p := by
  obtain ⟨input, final, ends, path⟩ := reaches
  -- The path to a final state of the part is one of the whole graph as well.
  exact (leave final ends).prepend (path.mono more)

end Graph

end PatternAutomata
