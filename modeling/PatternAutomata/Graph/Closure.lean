import PatternAutomata.Graph.Basic

/-! The states that are reached without reading, found by saturating a set along silent edges. -/

namespace PatternAutomata

namespace Graph

/-- The number of silent edges that leave states outside a set. -/
def silentEdgesOutside (g : Graph) (seen : SortedSet State) : Nat :=
  -- These are the edges that may still put something on the work list.
  g.edges.toList.countP fun edge => edge.symbol = .epsilon ∧ edge.source ∉ seen

/-- Putting a state into a set takes its silent edges out of the count. -/
theorem silentEdgesOutside_insert (g : Graph) {seen : SortedSet State} {state : State}
    (fresh : state ∉ seen) :
    g.silentEdgesOutside (insert state seen) + (g.successors state .epsilon).length =
      g.silentEdgesOutside seen := by
  -- A silent edge outside the smaller set leaves either the state itself or some other one.
  simp only [silentEdgesOutside, successors, List.length_map, ← List.countP_eq_length_filter]
  generalize g.edges.toList = edges
  induction edges with
  | nil => simp
  | cons edge rest ih =>
    simp only [List.countP_cons]
    by_cases silent : edge.symbol = .epsilon <;> by_cases here : edge.source = state <;>
      by_cases inside : edge.source ∈ seen <;> simp_all <;> omega

/-- Adds to the states seen so far those that are pending and all that they reach silently. -/
def saturate (g : Graph) (seen : SortedSet State) : List State → SortedSet State
  | [] => seen
  | state :: pending =>
    if state ∈ seen then
      g.saturate seen pending
    else
      -- A state that is seen for the first time makes its silent successors pending.
      g.saturate (insert state seen) (g.successors state .epsilon ++ pending)
-- A step drops a pending state, and the edges that it pends instead are not counted again.
termination_by pending => g.silentEdgesOutside seen + pending.length
decreasing_by
  · simp
  · rename_i fresh
    have := g.silentEdgesOutside_insert fresh
    simp
    omega

/-- The states that are reached from a set without reading, which need not be known to the graph. -/
def closure (g : Graph) (states : SortedSet State) : SortedSet State :=
  -- At first nothing has been seen and all given states are pending.
  g.saturate ∅ states.toList

end Graph

end PatternAutomata
