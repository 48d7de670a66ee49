import PatternAutomata.Conversion
import PatternAutomata.Graph.Change
import PatternAutomata.Graph.Dot
import PatternAutomata.Graph.Listing

/-! What can be asked of a graph, what can be done in a session, and what is answered. -/

namespace PatternAutomata

/-- Something that is answered after a command. -/
inductive Reply where
  /-- There is nothing to tell. -/
  | done
  /-- The parts of a graph without its edges. -/
  | summary (g : Graph)
  /-- All parts of a graph. -/
  | description (g : Graph)
  /-- Some states in order. -/
  | states (states : List State)
  /-- Yes or no. -/
  | truth (holds : Bool)
  /-- A graph as plain text. -/
  | listing (text : String)
  /-- A graph in the dot language. -/
  | drawing (text : String)
deriving DecidableEq

/-- A question about one graph, which leaves the graph as it is. -/
inductive Query where
  /-- Where do the edges with a symbol lead from a state? -/
  | targets (state : State) (symbol : Symbol)
  /-- Where do the edges with a character lead from any of some states? -/
  | move (states : List State) (c : Char)
  /-- Which states are reached from some states without reading? -/
  | closure (states : List State)
  /-- Is a state final? -/
  | isFinal (state : State)
  /-- Is any of some states final? -/
  | containsFinal (states : List State)
  /-- Does the graph leave a choice? -/
  | isNondeterministic
  /-- Is an input accepted? -/
  | accepts (input : String)
  /-- What is the graph, leaving out its edges? -/
  | summary
  /-- What is the graph? -/
  | description
  /-- How is the graph written as plain text? -/
  | listing
  /-- How is the graph drawn under a label? -/
  | dot (label : String)
deriving DecidableEq

/-- The answer of a graph to a question. -/
def Query.answer (g : Graph) : Query → Reply
  | targets state symbol => .states (g.targets state symbol).toList
  | move states c => .states (g.move (.ofList states) c).toList
  | closure states => .states (g.closure (.ofList states)).toList
  | isFinal state => .truth (g.isFinal state)
  | containsFinal states => .truth (g.containsFinal (.ofList states))
  | isNondeterministic => .truth g.isNondeterministic
  | accepts input => .truth (g.accepts input)
  | summary => .summary g
  | description => .description g
  | listing => .listing g.listing
  | dot label => .drawing (g.dot label)

/-- Something that can be done in a session, where graphs and builders are called by their names. -/
inductive Command where
  /-- Begin an empty graph. -/
  | newGraph (result : String)
  /-- Compile a pattern to a graph. -/
  | compile (pattern result : String)
  /-- Keep a second copy of a graph. -/
  | copy (graph result : String)
  /-- Convert a graph and keep the result beside it. -/
  | convert (conversion : Conversion) (graph result : String)
  /-- Begin a builder. -/
  | newBuilder (builder : String)
  /-- Build an automaton for a character. -/
  | literal (builder : String) (c : Char) (result : String)
  /-- Use up two graphs for one that accepts their inputs one after the other. -/
  | concat (builder left right result : String)
  /-- Use up two graphs for one that accepts the inputs of either. -/
  | union (builder left right result : String)
  /-- Use up a graph for one that accepts its inputs any number of times. -/
  | star (builder inner result : String)
  /-- Use up a graph for one that accepts its inputs once or more often. -/
  | plus (builder inner result : String)
  /-- Create some new states in a graph. -/
  | createStates (graph : String) (count : Nat)
  /-- Add an edge to a graph. -/
  | addEdge (graph : String) (edge : Edge)
  /-- Make a state the start of a graph. -/
  | setStart (graph : String) (state : State)
  /-- Make a state of a graph final. -/
  | markFinal (graph : String) (state : State)
  /-- Make several states of a graph final, one after the other. -/
  | markFinals (graph : String) (states : List State)
  /-- Use up another graph by merging it into a graph. -/
  | merge (graph other : String)
  /-- Ask a graph. -/
  | ask (graph : String) (query : Query)
deriving DecidableEq

/-- The reason why a command has no reply. -/
inductive Failure where
  /-- There is no graph of this name. -/
  | unknownGraph (name : String)
  /-- There is no builder of this name. -/
  | unknownBuilder (name : String)
  /-- The operation itself failed. -/
  | refused (error : Error)
deriving DecidableEq

end PatternAutomata
