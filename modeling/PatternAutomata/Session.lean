import PatternAutomata.Builder.Assembly
import PatternAutomata.Pattern.Compilation
import PatternAutomata.Session.Command

/-! Sessions, in which named graphs and builders are worked on by one command after another. -/

namespace PatternAutomata

/-- The graphs and builders that a session has under their names. -/
structure Session where
  /-- The named graphs. -/
  graphs : List (String × Graph) := []
  /-- The named builders. -/
  builders : List (String × Builder) := []
deriving DecidableEq

namespace Session

/-- The graph of a name. -/
def graph (s : Session) (name : String) : Except Failure Graph :=
  match s.graphs.lookup name with
  | some g => .ok g
  | none => .error (.unknownGraph name)

/-- The builder of a name. -/
def builder (s : Session) (name : String) : Except Failure Builder :=
  match s.builders.lookup name with
  | some builder => .ok builder
  | none => .error (.unknownBuilder name)

/-- The session without the graph of a name. -/
def removeGraph (s : Session) (name : String) : Session :=
  { s with graphs := s.graphs.filter fun entry => entry.1 ≠ name }

/-- The session with a graph under a name, which it takes from an earlier one. -/
def putGraph (s : Session) (name : String) (g : Graph) : Session :=
  -- The earlier graph of the name is dropped, so that every name stands for one graph.
  { s with graphs := (name, g) :: (s.removeGraph name).graphs }

/-- The session with a builder under a name, which it takes from an earlier one. -/
def putBuilder (s : Session) (name : String) (builder : Builder) : Session :=
  { s with builders := (name, builder) :: s.builders.filter fun entry => entry.1 ≠ name }

/-- Stores the graph that an operation gave, if it gave one. -/
def store (s : Session) (result : String) : Except Error Graph → Session × Except Error Reply
  | .ok g => (s.putGraph result g, .ok (.summary g))
  -- Nothing is stored under the name, which may keep an older graph.
  | .error error => (s, .error error)

/-- Makes the steps of a builder, and stores the graph that they give, if they give one. -/
def storeBuilt (s : Session) (name result : String) (builder : Builder) (steps : Assembly Graph) :
    Session × Except Error Reply :=
  -- The builder is what the steps have left of it, even if they have failed.
  let (builder, outcome) := steps.perform builder
  (s.putBuilder name builder).store result outcome

/-- Changes a graph in its place, which may leave a trace even if the change fails. -/
def changeGraph (s : Session) (name : String) (g : Graph) (change : Change) :
    Session × Except Error Reply :=
  -- New states are named in the reply, and any other change is answered by what came of it.
  let (changed, outcome) := g.change change
  (s.putGraph name changed, outcome.map fun created =>
    match change with
    | .createStates _ => .states created
    | _ => .summary changed)

/-- Looks up all that a command names, and only then carries it out. -/
def attempt (s : Session) : Command → Except Failure (Session × Except Error Reply)
  | .newGraph result => .ok (s.store result (.ok {}))
  | .compile pattern result => .ok (s.store result (PatternAutomata.compile pattern))
  | .copy name result => do
    let g ← s.graph name
    return s.store result (.ok g)
  | .convert conversion name result => do
    let g ← s.graph name
    return s.store result (g.convert conversion)
  | .newBuilder name => .ok (s.putBuilder name {}, .ok .done)
  | .literal name c result => do
    let builder ← s.builder name
    return s.storeBuilt name result builder (.literal c)
  | .concat name left right result => do
    let builder ← s.builder name
    let l ← s.graph left
    let r ← s.graph right
    -- Both graphs are used up, even if they cannot be combined.
    return ((s.removeGraph left).removeGraph right).storeBuilt name result builder (.concat l r)
  | .union name left right result => do
    let builder ← s.builder name
    let l ← s.graph left
    let r ← s.graph right
    return ((s.removeGraph left).removeGraph right).storeBuilt name result builder (.union l r)
  | .star name inner result => do
    let builder ← s.builder name
    let g ← s.graph inner
    return (s.removeGraph inner).storeBuilt name result builder (.star g)
  | .plus name inner result => do
    let builder ← s.builder name
    let g ← s.graph inner
    return (s.removeGraph inner).storeBuilt name result builder (.plus g)
  | .createStates name count => do
    let g ← s.graph name
    return s.changeGraph name g (.createStates count)
  | .addEdge name edge => do
    let g ← s.graph name
    return s.changeGraph name g (.addEdge edge)
  | .setStart name state => do
    let g ← s.graph name
    return s.changeGraph name g (.setStart state)
  | .markFinal name state => do
    let g ← s.graph name
    return s.changeGraph name g (.markFinal state)
  | .markFinals name states => do
    let g ← s.graph name
    return s.changeGraph name g (.markFinals states)
  | .merge name other => do
    let g ← s.graph name
    let o ← s.graph other
    -- A graph that is merged into itself stays.
    let s := if other = name then s else s.removeGraph other
    return s.changeGraph name g (.merge o)
  | .ask name query => do
    let g ← s.graph name
    return (s, .ok (query.answer g))

/-- Performs a command and gives the reply, or the reason why there is none. -/
def perform (s : Session) (command : Command) : Session × Except Failure Reply :=
  match s.attempt command with
  | .error failure => (s, .error failure)
  | .ok (next, .ok reply) => (next, .ok reply)
  -- What an operation has done until it is refused stays done.
  | .ok (next, .error error) => (next, .error (.refused error))

/-- Performs commands in order and gives all replies, going on after failures. -/
def run (s : Session) : List Command → Session × List (Except Failure Reply)
  | [] => (s, [])
  | command :: rest =>
    -- A command that fails does not end the session.
    let (s, outcome) := s.perform command
    let (s, outcomes) := s.run rest
    (s, outcome :: outcomes)

end Session

end PatternAutomata
