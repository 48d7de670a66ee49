import PatternAutomata.Graph.Basic

/-! Paths through a graph and the inputs that are read along them. -/

namespace PatternAutomata

namespace Graph

/-- A walk along edges from one state to another, together with the characters read on the way. -/
inductive Path (g : Graph) : State → List Char → State → Prop where
  /-- Staying in a state reads nothing. -/
  | here (p : State) : Path g p [] p
  /-- A silent edge adds nothing to what is read. -/
  | silent {p q r : State} {input : List Char} (edge : ⟨p, .epsilon, q⟩ ∈ g.edges)
      (rest : Path g q input r) : Path g p input r
  /-- Any other edge adds its character at the front. -/
  | read {p q r : State} {c : Char} {input : List Char} (edge : ⟨p, .char c, q⟩ ∈ g.edges)
      (rest : Path g q input r) : Path g p (c :: input) r

namespace Path

variable {g : Graph} {p q r : State} {first second : List Char}

/-- Paths that meet in a state make one path that reads both inputs in order. -/
theorem append (head : g.Path p first q) (tail : g.Path q second r) :
    g.Path p (first ++ second) r := by
  -- The first path is taken apart edge by edge.
  induction head with
  | here => exact tail
  | silent edge _ ih => exact silent edge (ih tail)
  | read edge _ ih => exact read edge (ih tail)

/-- A path that reads two inputs in order passes a state between them. -/
theorem exists_between (path : g.Path p (first ++ second) r) :
    ∃ q, g.Path p first q ∧ g.Path q second r := by
  -- The induction is on the path, so the two inputs are kept as an equation.
  generalize whole : first ++ second = input at path
  induction path generalizing first with
  | here p =>
    obtain ⟨rfl, rfl⟩ := List.append_eq_nil_iff.mp whole
    exact ⟨p, here p, here p⟩
  | silent edge _ ih =>
    obtain ⟨q, head, tail⟩ := ih whole
    exact ⟨q, silent edge head, tail⟩
  | @read p _ _ c rest edge path ih =>
    cases first with
    | nil =>
      -- Nothing is read before the state, so the path has not left yet.
      cases whole
      exact ⟨p, here p, read edge path⟩
    | cons d first =>
      cases whole
      obtain ⟨q, head, tail⟩ := ih rfl
      exact ⟨q, read edge head, tail⟩

/-- A path stays a path when the graph gets more edges. -/
theorem mono {g' : Graph} (more : ∀ edge ∈ g.edges, edge ∈ g'.edges)
    (path : g.Path p first q) : g'.Path p first q := by
  -- Each edge of the path is there in the larger graph as well.
  induction path with
  | here => exact here _
  | silent edge _ ih => exact silent (more _ edge) ih
  | read edge _ ih => exact read (more _ edge) ih

end Path

/-- An input is spelled by a graph when a path reads it from the start to a final state. -/
def Spells (g : Graph) (input : List Char) : Prop :=
  -- A graph without a start spells nothing, whatever it has for final states.
  ∃ start final, g.start = some start ∧ final ∈ g.finals ∧ g.Path start input final

end Graph

end PatternAutomata
