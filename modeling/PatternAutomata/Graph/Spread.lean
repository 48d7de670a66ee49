import PatternAutomata.Graph.Basic

/-! Following silent edges round by round, where every state waits once as soon as it is reached. -/

namespace PatternAutomata

/-- States that have been reached without reading, as far as silent edges have been followed. -/
structure Spread where
  /-- The states that have been reached. -/
  reached : SortedSet State := ∅
  /-- Those whose silent edges have not been followed, the latest first. -/
  waiting : List State := []
deriving DecidableEq

namespace Spread

/-- Reaches a state, which waits if it is reached for the first time. -/
def enter (x : Spread) (state : State) : Spread :=
  -- What is reached is marked at once, so that no state waits twice.
  if state ∈ x.reached then x else ⟨insert state x.reached, state :: x.waiting⟩

/-- Reaches some states one after the other, which may be repeated. -/
def enterAll (x : Spread) (states : List State) : Spread := states.foldl enter x

/-- Follows the silent edges of the latest state that waits, unless none does. -/
def round (g : Graph) (x : Spread) : Spread :=
  match x.waiting with
  | [] => x
  | state :: waiting =>
    -- The state is taken before its targets are reached, of which it may be one.
    enterAll { x with waiting } (g.successors state .epsilon)

/-- What has been reached from some states after a number of rounds. -/
def after (g : Graph) (states : List State) : Nat → Spread
  | 0 => enterAll {} states
  | rounds + 1 => round g (after g states rounds)

end Spread

end PatternAutomata
