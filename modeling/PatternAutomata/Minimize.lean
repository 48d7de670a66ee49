import PatternAutomata.Determinize
import PatternAutomata.Partition

/-! Making a deterministic automaton as small as possible by joining states that behave alike. -/

namespace PatternAutomata

namespace Graph

/-- The states told apart only by whether an input may end in them, before any class is counted. -/
def finality (g : Graph) : Partition :=
  -- The count is below any number of classes, so that there is at least one round.
  { classes := g.states.toList.map fun state => (state, if g.isFinal state then 1 else 0)
    count := 0 }

/-- The class of a state, and the class to which each character of the alphabet leads from it. -/
def signature (g : Graph) (p : Partition) (state : State) : Option Nat × List (Option Nat) :=
  -- A missing edge is told apart from edges to all classes.
  (p.classOf state, g.alphabet.toList.map fun c => (g.successor? state c).bind p.classOf)

/-- Splits classes so that states stay together only if their edges lead into the same classes. -/
def refine (g : Graph) (p : Partition) : Partition :=
  -- The signature has the old class in it, so classes are split and never joined.
  Partition.byKey g.states.toList (g.signature p)

/-- A refinement has no more classes than there are states. -/
theorem count_refine_le (g : Graph) (p : Partition) : (g.refine p).count ≤ g.states.size :=
  Partition.count_byKey_le ..

/-- Splits classes until there is nothing left to split, which an unchanged number of them tells. -/
def stabilize (g : Graph) (p : Partition) : Partition :=
  let refined := g.refine p
  -- Classes are only ever split, so their number tells whether one was.
  if p.count < refined.count then g.stabilize refined else refined
-- The number of classes grows, and never beyond the number of states.
termination_by g.states.size - p.count
decreasing_by
  rename_i grown
  have grown : p.count < (g.refine p).count := grown
  have bounded := g.count_refine_le p
  omega

/-- Adds the edge of a class for one character, if the character leads anywhere from a state. -/
def addClassEdge (g : Graph) (p : Partition) (number : Nat) (state : State) (q : Graph)
    (c : Char) : Except Error Graph :=
  match (g.successor? state c).bind p.classOf with
  -- A class without an edge for the character gets none.
  | none => .ok q
  | some target => q.addEdge ⟨number, .char c, target⟩

/-- Adds the edges of a class, which its smallest state has, and makes it final if that state is. -/
def addClass (g : Graph) (p : Partition) (q : Graph) (number : Nat) : Except Error Graph :=
  match p.representative number with
  | none => .ok q
  | some representative => do
    -- Any state of the class would do, since their edges lead into the same classes.
    let q ← g.alphabet.toList.foldlM (g.addClassEdge p number representative) q
    if g.isFinal representative then q.markFinal number else .ok q

/-- Makes a known state the start, if there is one to be made the start. -/
def setStart? (g : Graph) : Option State → Except Error Graph
  -- There is no class for a start that is missing.
  | none => .ok g
  | some state => g.setStart state

/-- The graph that has the classes of a partition as its states. -/
def quotient (g : Graph) (p : Partition) : Except Error Graph := do
  -- The states of the result are numbered like the classes.
  let (numbers, q) := Graph.createStates {} p.count
  let q ← numbers.foldlM (g.addClass p) q
  q.setStart? (g.start.bind p.classOf)

/-- A deterministic automaton with its states joined that behave alike, whether reached or not. -/
def joinAlike (g : Graph) : Except Error Graph :=
  match g.start with
  | none => .ok {}
  | some _ =>
    -- No class has been counted at first, so there is at least one round that counts them.
    g.quotient (g.stabilize g.finality)

/--
A deterministic automaton for the same inputs in which no two states behave alike.

A graph that already is deterministic keeps also the states that no input leads to.
-/
def minimize (g : Graph) : Except Error Graph := do
  -- A graph that leaves no choice keeps all of its states, also unreachable ones.
  let dfa ← (if g.isNondeterministic then g.determinize else .ok g)
  dfa.joinAlike

end Graph

end PatternAutomata
