/-! Drawings as calls on a writer of the dot language, and what is assumed of such a writer. -/

namespace PatternAutomata

namespace Drawing

/-- A color in which nodes are drawn. -/
inductive Color where
  /-- The color of the start. -/
  | blue
  /-- The color of final states. -/
  | red
deriving DecidableEq

/-- The name of a color. -/
def Color.name : Color → String
  | blue => "blue"
  | red => "red"

/-- Something that is set on a drawing, on a node or on an edge. -/
inductive Setting where
  /-- A text is shown. -/
  | label (text : String)
  /-- Edges lead from left to right. -/
  | leftToRight
  /-- A node has the shape of a circle. -/
  | circle
  /-- A color is used. -/
  | color (color : Color)
  /-- Lines are as wide as this. -/
  | penWidth (width : Nat)
deriving DecidableEq

/-- Something that is asked of a writer. -/
inductive Call where
  /-- Break and indent lines from now on, or do not. -/
  | setPrettyPrint (wanted : Bool)
  /-- Begin a directed graph. -/
  | digraph
  /-- Set something on the drawing as a whole. -/
  | setOnDrawing (setting : Setting)
  /-- Begin a node. -/
  | node (name : String)
  /-- Set something on the node that was begun last. -/
  | setOnNode (setting : Setting)
  /-- Begin an edge. -/
  | edge (source target : String)
  /-- Turn to the attributes of the edge that was begun last. -/
  | attributes
  /-- Set something on the edge that was begun last. -/
  | setOnEdge (setting : Setting)
deriving DecidableEq

/-- Calls that belong together. -/
inductive Statement where
  /-- Something is set on the drawing as a whole. -/
  | overall (setting : Setting)
  /-- There is a node. -/
  | node (name : String) (settings : List Setting)
  /-- There is an edge between two nodes. -/
  | edge (source target : String) (settings : List Setting)
deriving DecidableEq

/-- The calls of a statement in order. -/
def Statement.calls : Statement → List Call
  | overall setting => [.setOnDrawing setting]
  -- What is set on a node or an edge follows the call that begins it.
  | node name settings => .node name :: settings.map .setOnNode
  | edge source target settings =>
    .edge source target :: .attributes :: settings.map .setOnEdge

/-- A name that needs no quotes. -/
def IsName (name : String) : Prop := ∀ c ∈ name.toList, c.isAlphanum ∨ c = '_'

/-- A writer, which turns calls into text. -/
structure Writer where
  /-- The text that has been written after some calls. -/
  write : List Call → String
  /-- How a statement is written, up to the end of its line. -/
  statement : Statement → String
  /-- How a setting is written. -/
  setting : Setting → String

/-- What is assumed of a writer that breaks and indents lines when it is asked to. -/
structure Writer.Pretty (writer : Writer) : Prop where
  /-- Each statement takes a line of its own, in the order of the calls. -/
  lines : ∀ statements : List Statement,
    writer.write (.setPrettyPrint true :: .digraph :: statements.flatMap Statement.calls) =
      "digraph \x7b\n" ++
        String.join (statements.map fun statement => "  " ++ writer.statement statement ++ ";\n") ++
        "\x7d\n"
  /-- What is set on the drawing stands for itself. -/
  overall : ∀ setting, writer.statement (.overall setting) = writer.setting setting
  /-- What is set on a node stands in brackets behind its name, with commas in between. -/
  node : ∀ name settings, IsName name → settings ≠ [] →
    writer.statement (.node name settings) =
      name ++ " [" ++ ", ".intercalate (settings.map writer.setting) ++ "]"
  /-- What is set on an edge stands in brackets behind the names of both nodes. -/
  edge : ∀ source target settings, IsName source → IsName target → settings ≠ [] →
    writer.statement (.edge source target settings) =
      source ++ " -> " ++ target ++ " [" ++ ", ".intercalate (settings.map writer.setting) ++ "]"
  /-- A label stands between quotes as it is, and nothing in it is escaped. -/
  label : ∀ text, writer.setting (.label text) = "label=\"" ++ text ++ "\""
  /-- The direction of a drawing is abbreviated. -/
  leftToRight : writer.setting .leftToRight = "rankdir=LR"
  /-- A shape is called by its name. -/
  circle : writer.setting .circle = "shape=circle"
  /-- A color is called by its name. -/
  color : ∀ color, writer.setting (.color color) = "color=" ++ color.name
  /-- A width of three has no decimals. -/
  penWidth : writer.setting (.penWidth 3) = "penwidth=3"

/-- How a setting is written by the standard writer. -/
def Setting.text : Setting → String
  -- Quotes in a label are not escaped, so that whoever draws has to care for them.
  | label text => "label=\"" ++ text ++ "\""
  | leftToRight => "rankdir=LR"
  | circle => "shape=circle"
  | color tint => "color=" ++ tint.name
  | penWidth width => "penwidth=" ++ width.repr

/-- How the standard writer lists settings, which takes no brackets if there are none. -/
def bracketed : List Setting → String
  | [] => ""
  | settings => " [" ++ ", ".intercalate (settings.map Setting.text) ++ "]"

/-- How a statement is written by the standard writer. -/
def Statement.text : Statement → String
  | overall setting => setting.text
  | node name settings => name ++ bracketed settings
  -- An arrow stands between the names, since the graph is directed.
  | edge source target settings => source ++ " -> " ++ target ++ bracketed settings

/-- What some calls set on the statement that was begun before them, and the statements behind. -/
def gather : List Call → List Setting × List Statement
  | [] => ([], [])
  | call :: rest =>
    -- The last call is looked at first, so that a statement finds what is set on it.
    let (settings, statements) := gather rest
    match call with
    | .setOnNode setting | .setOnEdge setting => (setting :: settings, statements)
    | .node name => ([], .node name settings :: statements)
    | .edge source target => ([], .edge source target settings :: statements)
    | .setOnDrawing setting => ([], .overall setting :: statements)
    | .attributes | .setPrettyPrint _ | .digraph => (settings, statements)

/-- The standard writer, which breaks and indents lines without being asked to. -/
def Writer.standard : Writer where
  write calls :=
    -- All calls are known at once, so that no statement is left open.
    let lines := (gather calls).2.map fun statement => "  " ++ statement.text ++ ";\n"
    "digraph \x7b\n" ++ String.join lines ++ "\x7d\n"
  statement := Statement.text
  setting := Setting.text

end Drawing

end PatternAutomata
