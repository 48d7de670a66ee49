import PatternAutomata.Graph.Path
import PatternAutomata.Proofs.Graph.Run

/-! Walks as lists of edges, and acceptance as the search for a walk that spells the input. -/

namespace PatternAutomata

/-- The characters that stand on some edges in order, where silent edges contribute nothing. -/
def Edge.spelling (edges : List Edge) : List Char :=
  edges.filterMap fun edge => edge.symbol.char?

namespace Graph

/-- Edges of a graph that follow each other from one state to another. -/
def Walk (g : Graph) : State → List Edge → State → Prop
  -- Without edges the walk ends where it begins.
  | p, [], q => p = q
  | p, edge :: rest, q => edge ∈ g.edges ∧ edge.source = p ∧ Walk g edge.target rest q

/-- What is read along a path is what the edges of some walk spell. -/
theorem path_iff_exists_walk {g : Graph} {p q : State} {input : List Char} :
    g.Path p input q ↔ ∃ edges, g.Walk p edges q ∧ Edge.spelling edges = input := by
  constructor
  · intro path
    -- Each step of the path puts its edge in front of the walk.
    induction path with
    | here p => exact ⟨[], rfl, rfl⟩
    | silent edge _ ih =>
      obtain ⟨edges, walk, spells⟩ := ih
      exact ⟨_ :: edges, ⟨edge, rfl, walk⟩, by simpa [Edge.spelling, Symbol.char?] using spells⟩
    | read edge _ ih =>
      obtain ⟨edges, walk, spells⟩ := ih
      exact ⟨_ :: edges, ⟨edge, rfl, walk⟩, by simpa [Edge.spelling, Symbol.char?] using spells⟩
  · rintro ⟨edges, walk, rfl⟩
    induction edges generalizing p with
    | nil =>
      -- A walk without edges stays where it is.
      cases walk
      exact Path.here _
    | cons edge rest ih =>
      obtain ⟨source, symbol, target⟩ := edge
      obtain ⟨member, rfl, walk⟩ := walk
      -- The first edge is taken silently or by reading, as its symbol says.
      cases symbol with
      | epsilon => exact Path.silent member (ih walk)
      | char c => exact Path.read member (ih walk)

/--
An input is accepted exactly when some walk from the start to a final state spells it.

It makes no difference that a run stops as soon as it has no states left.
-/
theorem accepts_iff_exists_walk (g : Graph) (input : String) :
    (g.accepts input = true ↔ ∃ start edges final, g.start = some start ∧ final ∈ g.finals ∧
      g.Walk start edges final ∧ Edge.spelling edges = input.toList) ∧
    g.accepts input = g.start.any fun start =>
      g.containsFinal (g.advanceAll (g.closure {start}) input.toList) := by
  constructor
  · rw [accepts_iff_spells, Spells]
    simp only [path_iff_exists_walk]
    -- The two sides name the walk and its end in different places.
    constructor
    · rintro ⟨start, final, begins, ends, edges, walk, spells⟩
      exact ⟨start, edges, final, begins, ends, walk, spells⟩
    · rintro ⟨start, edges, final, begins, ends, walk, spells⟩
      exact ⟨start, final, begins, ends, edges, walk, spells⟩
  · rw [accepts]
    cases g.start with
    | none => rfl
    | some start => exact acceptsFrom_eq ..

end Graph

end PatternAutomata
