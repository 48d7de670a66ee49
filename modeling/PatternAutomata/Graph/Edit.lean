import PatternAutomata.Graph.Change
import PatternAutomata.Steps

/-! Changes to a graph written out step by step, and what is left of many without failing ones. -/

namespace PatternAutomata

/-- Steps that read and write a graph. -/
abbrev Edit (α : Type) := Steps Graph α

namespace Edit

/-- Fails if the graph does not have a state. -/
def check (state : State) : Edit Unit := do
  -- Nothing has been written when this fails.
  if state ∉ (← get).states then throw (.unknownState state)

/-- Takes the next number for a new state. -/
def createState : Edit State := do
  let state := (← get).next
  -- The counter moves on before the state is known.
  modify fun g => { g with next := g.next + 1 }
  modify fun g => { g with states := insert state g.states }
  return state

/-- Takes some numbers for new states, oldest first. -/
def createStates : Nat → Edit (List State)
  | 0 => return []
  | count + 1 => do
    let state ← createState
    let states ← createStates count
    return state :: states

/-- Checks both ends of an edge before its character and the edge itself are written. -/
def addEdge (edge : Edge) : Edit Unit := do
  check edge.source
  check edge.target
  -- A silent edge leaves the alphabet alone.
  match edge.symbol with
  | .epsilon => pure ()
  | .char c => modify fun g => { g with alphabet := insert c g.alphabet }
  modify fun g => { g with edges := insert edge g.edges }

/-- Checks a state before it is written as the start. -/
def setStart (state : State) : Edit Unit := do
  check state
  -- An earlier start is replaced.
  modify fun g => { g with start := some state }

/-- Checks a state before it is written as a final one. -/
def markFinal (state : State) : Edit Unit := do
  check state
  modify fun g => { g with finals := insert state g.finals }

/-- Marks one state after the other, so that the first ones have been written if one fails. -/
def markFinals : List State → Edit Unit
  | [] => pure ()
  | state :: rest => do
    -- If this state is unknown, none of those behind it is marked.
    markFinal state
    markFinals rest

/-- Looks for a shared state before the parts of another graph are written one by one. -/
def merge (other : Graph) : Edit Unit := do
  match (← get).states.toList.find? (· ∈ other.states) with
  | some shared => throw (.stateCollision shared)
  | none =>
    -- Start and final states of the other graph are left behind.
    modify fun g => { g with states := g.states ∪ other.states }
    modify fun g => { g with next := max g.next other.next }
    modify fun g => { g with edges := g.edges ∪ other.edges }
    modify fun g => { g with alphabet := g.alphabet ∪ other.alphabet }

/-- The steps of a change, which give the states that it creates. -/
def ofChange : Change → Edit (List State)
  | .createStates count => createStates count
  -- Only the first of these changes has new states to tell.
  | .addEdge edge => do addEdge edge; return []
  | .setStart state => do setStart state; return []
  | .markFinal state => do markFinal state; return []
  | .markFinals states => do markFinals states; return []
  | .merge other => do merge other; return []

end Edit

/-- A change that is made to a graph, whether or not it succeeds. -/
structure Attempt where
  /-- The graph before the change. -/
  before : Graph
  /-- The change. -/
  change : Change
deriving DecidableEq

namespace Attempt

/-- The graph after the steps of the change, as far as they went. -/
def after (attempt : Attempt) : Graph := ((Edit.ofChange attempt.change).perform attempt.before).1

/-- The states that have been created, or the reason why the change has failed. -/
def outcome (attempt : Attempt) : Except Error (List State) :=
  ((Edit.ofChange attempt.change).perform attempt.before).2

/-- What has been done by a change that failed, which is something only if it marked states. -/
def done? (attempt : Attempt) : Option Attempt :=
  match attempt.change with
  | .markFinals states =>
    -- States are marked in order, so those in front of the first unknown one have been.
    some { attempt with change := .markFinals (states.takeWhile (· ∈ attempt.before.states)) }
  | _ => none

/-- The attempt as it is, or if it is left out because it has failed, what it has done. -/
def remains (leftOut : Bool) (attempt : Attempt) : Option Attempt :=
  match leftOut, attempt.outcome with
  | true, .error _ => attempt.done?
  -- What has succeeded remains, also if failing changes are left out here.
  | _, _ => some attempt

end Attempt

namespace Graph

/-- Changes that are made to a graph in order, each to what the ones before have left. -/
def attempts (g : Graph) : List Change → List Attempt
  | [] => []
  -- An attempt that fails leaves what the next one is made to.
  | change :: rest => ⟨g, change⟩ :: attempts (Attempt.mk g change).after rest

/-- Makes changes in order, going on after failures, and gives the outcomes of all of them. -/
def changeAll (g : Graph) : List Change → Graph × List (Except Error (List State))
  | [] => (g, [])
  | change :: rest =>
    let (changed, outcome) := (Edit.ofChange change).perform g
    -- A failure keeps none of the later changes from being made.
    let (last, outcomes) := changed.changeAll rest
    (last, outcome :: outcomes)

/-- What remains of changes to a graph if failing ones are left out at some positions. -/
def remaining (g : Graph) (leftOut : Nat → Bool) (changes : List Change) : List Attempt :=
  -- Attempts are told apart by their positions, as the same change may be made twice.
  (g.attempts changes).zipIdx.filterMap fun entry => entry.1.remains (leftOut entry.2)

end Graph

end PatternAutomata
