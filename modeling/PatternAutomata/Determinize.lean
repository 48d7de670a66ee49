import PatternAutomata.Graph.Run

/-! Making an automaton deterministic by following sets of its states. -/

namespace PatternAutomata

/-- How far a deterministic graph has been built, whose states stand for sets of other states. -/
structure Exploration where
  /-- The deterministic graph so far. -/
  dfa : Graph := {}
  /-- The sets that its states stand for, in the order of their numbers. -/
  subsets : List (SortedSet State) := []
  /-- The states whose edges are not there yet, the latest first. -/
  pending : List State := []
deriving DecidableEq

namespace Exploration

/-- The state for a set, which is new, pending and possibly final if the set has not been met. -/
def visit (g : Graph) (x : Exploration) (subset : SortedSet State) :
    Except Error (State × Exploration) :=
  match x.subsets.idxOf? subset with
  | some state => .ok (state, x)
  | none => do
    -- States are numbered without gaps, so the new number is the place of the set in the list.
    let (state, dfa) := x.dfa.createState
    let dfa ← if g.containsFinal subset then dfa.markFinal state else .ok dfa
    return (state, ⟨dfa, x.subsets ++ [subset], state :: x.pending⟩)

/-- Adds the edge of a state for one character, unless the character leads nowhere from its set. -/
def follow (g : Graph) (source : State) (subset : SortedSet State) (x : Exploration) (c : Char) :
    Except Error Exploration :=
  let reached := g.advance subset c
  -- The empty set gets no state, so that the result may be partial.
  if reached = ∅ then
    .ok x
  else do
    let (target, x) ← x.visit g reached
    return { x with dfa := ← x.dfa.addEdge ⟨source, .char c, target⟩ }

/-- The set that a state stands for, which is empty for a state that has not been given out. -/
def subsetOf (x : Exploration) (state : State) : SortedSet State := x.subsets.getD state ∅

/-- Adds all edges of a state, going through the alphabet in ascending order. -/
def expand (g : Graph) (state : State) (x : Exploration) : Except Error Exploration :=
  -- The set is looked up once, since following edges only appends sets.
  g.alphabet.toList.foldlM (follow g state (x.subsetOf state)) x

/-- Adds the edges of pending states, the latest first, for at most a number of states. -/
def explore (g : Graph) : Nat → Exploration → Except Error Exploration
  | 0, x => .ok x
  | bound + 1, x =>
    -- What is reached on the way is put in front and so comes next.
    match x.pending with
    | [] => .ok x
    | state :: pending => do explore g bound (← expand g state { x with pending })

end Exploration

namespace Graph

/--
A deterministic automaton for the same inputs, whose first state is the start.

Its states are numbered as they are reached, and a missing edge leads to rejection.
No more sets of states can be met than there are, which bounds the exploration.
-/
def determinize (g : Graph) : Except Error Graph :=
  match g.start with
  | none => .ok {}
  | some start => do
    -- The exploration begins with what the start reaches without reading.
    let (initial, x) ← Exploration.visit g {} (g.closure {start})
    let x := { x with dfa := ← x.dfa.setStart initial }
    return (← Exploration.explore g (Nat.pow 2 g.states.size) x).dfa

end Graph

end PatternAutomata
