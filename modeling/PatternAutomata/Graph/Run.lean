import PatternAutomata.Graph.Closure

/-! Running an automaton on an input by following all its states at once. -/

namespace PatternAutomata

namespace Graph

/-- The states in which reading one character can end. -/
def advance (g : Graph) (states : SortedSet State) (c : Char) : SortedSet State :=
  -- Silent edges may be taken once the character has been read.
  g.closure (g.move states c)

/-- Tells whether reading an input from some states can end in a final one. -/
def acceptsFrom (g : Graph) (states : SortedSet State) : List Char → Bool
  | [] => g.containsFinal states
  | c :: rest =>
    let states := g.advance states c
    -- Without states nothing that follows can be accepted.
    if states = ∅ then false else g.acceptsFrom states rest

/-- Tells whether the automaton accepts an input, which takes a start state. -/
def accepts (g : Graph) (input : String) : Bool :=
  match g.start with
  | none => false
  -- Silent edges may also be taken before the first character.
  | some start => g.acceptsFrom (g.closure {start}) input.toList

end Graph

end PatternAutomata
