import PatternAutomata.Graph.Drawn
import PatternAutomata.Proofs.Drawing
import PatternAutomata.Proofs.Session
import PatternAutomata.Proofs.Text.Reader

/-! A drawing is read back into what it shows, and each of its lines quotes a single text. -/

namespace PatternAutomata

open Drawing Text

namespace Reader

/-- The name of a state is read where it stands, unless another digit follows. -/
theorem nodeName_run (state : State) (rest : List Char)
    (ends : ∀ c ∈ rest.head?, c.isDigit = false) :
    nodeName.run ((Graph.nodeName state).toList ++ rest) = some (state, rest) := by
  -- The word in front is followed by a number, which ends where no digit follows.
  simp only [nodeName, Graph.nodeName, String.toList_append, List.append_assoc, StateT.run_bind,
    expect_run, Option.bind_eq_bind, Option.bind_some, number_run _ _ ends]

/-- The line for a state is read where it stands. -/
theorem drawnState_run (g : Graph) (state : State) (rest : List Char) :
    drawnState.run ((g.drawnState state).toList ++ rest) = some (g.node state, rest) := by
  -- The blue attributes are found only if they are there, as the red ones have another color.
  have name := fun rest => nodeName_run state (" [label=\"".toList ++ rest) (by simp)
  have begins := fun rest => choose_run (Graph.circled .blue) "" (g.start = some state)
    ((if g.isFinal state then Graph.circled .red else "").toList ++ ("];\n".toList ++ rest))
    fun _ => by split <;> rfl
  have final := fun rest => choose_run (Graph.circled .red) "" (g.isFinal state)
    ("];\n".toList ++ rest) fun _ => rfl
  simp only [drawnState, Graph.drawnState, String.toList_append, List.append_assoc,
    StateT.run_bind, expect_run, Option.bind_eq_bind, Option.bind_some, name, begins, final,
    Bool.decide_eq_true, StateT.run_pure]
  rfl

/-- The line for an edge is read where it stands. -/
theorem drawnEdge_run (edge : Edge) (rest : List Char) :
    drawnEdge.run ((Graph.drawnEdge edge).toList ++ rest) = some (edge, rest) := by
  -- Neither of the two names is followed by a digit.
  have source := fun rest => nodeName_run edge.source (" -> ".toList ++ rest) (by simp)
  have target := fun rest => nodeName_run edge.target (" [label=\"".toList ++ rest) (by simp)
  simp only [drawnEdge, Graph.drawnEdge, String.toList_append, List.append_assoc, StateT.run_bind,
    expect_run, Option.bind_eq_bind, Option.bind_some, source, target, symbol_run, StateT.run_pure]
  rfl

/-- The line for an edge is not one for a state. -/
theorem drawnState_run_drawnEdge (edge : Edge) (rest : List Char) :
    drawnState.run ((Graph.drawnEdge edge).toList ++ rest) = none := by
  -- An arrow stands where a label would have to be.
  have source := fun rest => nodeName_run edge.source (" -> ".toList ++ rest) (by simp)
  simp only [drawnState, Graph.drawnEdge, String.toList_append, List.append_assoc, StateT.run_bind,
    expect_run, Option.bind_eq_bind, Option.bind_some, source]
  rfl

end Reader

/-- In a line a single text stands between quotes. -/
structure QuotedLine.QuotesText (line : QuotedLine) : Prop where
  /-- There are no other quotes in the line, and the line is not broken. -/
  bare : ∀ c, c = '"' ∨ c = '\n' → c ∉ line.before ++ line.after
  /-- The text may stand between quotes. -/
  quoted : WellQuoted line.text

namespace Graph

variable {g : Graph} {writer : Writer}

/-- A character in the name of a state is a letter, a digit or an underscore. -/
theorem isName_nodeName (state : State) : IsName (nodeName state) := by
  intro c member
  rw [nodeName, String.toList_append, Nat.toList_repr, List.mem_append] at member
  rcases member with member | member
  · -- The letters in front of the number are gone through one by one.
    simp only [String.reduceToList, List.mem_cons, List.not_mem_nil, or_false] at member
    rcases member with rfl | rfl | rfl | rfl | rfl <;> decide
  · -- A digit is alphanumeric.
    have digit := Nat.isDigit_of_mem_toDigits (by omega) (by omega) member
    simp [Char.isAlphanum, digit]

/-- The name of a state neither quotes nor breaks a line. -/
theorem not_mem_nodeName {c : Char} (special : c = '"' ∨ c = '\n') (state : State) :
    c ∉ (nodeName state).toList := by
  intro member
  -- Neither of these is a letter, a digit or an underscore.
  rcases special with rfl | rfl <;> exact absurd (isName_nodeName state _ member) (by decide)

/-- The calls for a state are those of its statement. -/
theorem stateCalls_eq (g : Graph) (state : State) :
    g.stateCalls state = (g.stateStatement state).calls := by
  simp only [stateCalls, stateStatement, Statement.calls]
  -- The start and a final state are drawn apart, so that there are four cases.
  split <;> split <;> rfl

/-- The calls for a drawing are those of its statements. -/
theorem drawingCalls_eq (g : Graph) (label : String) : g.drawingCalls label =
    .setPrettyPrint true :: .digraph :: (g.statements label).flatMap Statement.calls := by
  -- States and edges have the calls of their statements, one after the other.
  have edges : edgeCalls = fun edge => (edgeStatement edge).calls := rfl
  have states : g.stateCalls = fun state => (g.stateStatement state).calls :=
    funext g.stateCalls_eq
  simp only [drawingCalls, statements, states, edges, List.flatMap_append, List.flatMap_map]
  rfl

/-- A pretty writer draws a thick circle in a color by three settings behind the label. -/
theorem join_highlights (pretty : writer.Pretty) (color : Color) :
    String.join (((highlights color).map writer.setting).map (", " ++ ·)) = circled color := by
  simp only [highlights, List.map_cons, List.map_nil, pretty.circle, pretty.color, pretty.penWidth]
  -- The words are known up to the color, of which there are two.
  cases color <;> rfl

/-- A pretty writer writes the line for a state. -/
theorem line_stateStatement (pretty : writer.Pretty) (g : Graph) (state : State) :
    "  " ++ writer.statement (g.stateStatement state) ++ ";\n" = g.drawnState state := by
  have settings := fun settings => pretty.node (nodeName state)
    (.label state.repr :: settings) (isName_nodeName state) (List.cons_ne_nil _ _)
  have circled := join_highlights pretty
  -- The settings of the start and those of a final state are there or not, apart from each other.
  have chosen : ∀ (shown : Prop) [Decidable shown] (color : Color),
      String.join (((if shown then highlights color else []).map writer.setting).map (", " ++ ·)) =
        if shown then Graph.circled color else "" := by
    intro shown _ color
    split
    · exact circled color
    · rfl
  rw [stateStatement, List.cons_append, settings, List.map_cons, intercalate_cons, pretty.label,
    List.map_append, List.map_append, String.join_append, chosen, chosen]
  simp only [drawnState, String.append_assoc]
  rfl

/-- A pretty writer writes the line for an edge. -/
theorem line_edgeStatement (pretty : writer.Pretty) (edge : Edge) :
    "  " ++ writer.statement (edgeStatement edge) ++ ";\n" = drawnEdge edge := by
  -- There is a single setting, so that no comma is written.
  rw [edgeStatement, pretty.edge _ _ _ (isName_nodeName _) (isName_nodeName _)
    (List.cons_ne_nil _ _), List.map_cons, List.map_nil, String.intercalate_singleton, pretty.label]
  simp only [drawnEdge, String.append_assoc]
  rfl

/-- A pretty writer begins with the label of a drawing and its direction. -/
theorem join_overall (pretty : writer.Pretty) (label : String) :
    String.join (([.overall (.label label), .overall .leftToRight] : List Statement).map
      fun statement => "  " ++ writer.statement statement ++ ";\n") =
      "  label=\"" ++ label ++ "\";\n" ++ "  rankdir=LR;\n" := by
  -- The words on both sides end in different places, so that their characters are compared.
  simp only [List.map_cons, List.map_nil, pretty.overall, pretty.label, pretty.leftToRight]
  refine String.toList_inj.mp ?_
  simp only [String.toList_join, List.flatMap_cons, List.flatMap_nil, String.toList_append,
    List.append_assoc]
  rfl

/-- A pretty writer writes the lines for all states and then those for all edges. -/
theorem render_eq (pretty : writer.Pretty) (g : Graph) (label : String) : g.render writer label =
    drawingHead label ++ String.join (g.states.toList.map g.drawnState) ++
      String.join (g.edges.toList.map drawnEdge) ++ "\x7d\n" := by
  -- The calls are those of the statements, and each of these takes its line.
  rw [render, drawingCalls_eq, pretty.lines, statements, List.map_append, List.map_append,
    String.join_append, String.join_append, join_overall pretty, List.map_map, List.map_map]
  simp only [Function.comp_def, line_stateStatement pretty, line_edgeStatement pretty]
  simp only [drawingHead, String.append_assoc]

/-- The text of a drawing between its head and its last line. -/
theorem toList_render (pretty : writer.Pretty) (g : Graph) (label : String) :
    (g.render writer label).toList = (drawingHead label).toList ++
      (g.states.toList.flatMap (fun state => (g.drawnState state).toList) ++
        (g.edges.toList.flatMap (fun edge => (drawnEdge edge).toList) ++ "\x7d\n".toList)) := by
  simp only [render_eq pretty, String.toList_append, String.toList_join, List.flatMap_map,
    List.append_assoc]

/-- A drawing of a well-formed graph is read back into what can be seen of the graph. -/
theorem WellFormed.ofDot_render (wf : g.WellFormed) (pretty : writer.Pretty) (label : String) :
    ofDot label (g.render writer label) = some g.contents := by
  have edges := Reader.many_run (fun _ => True) "\x7d\n".toList
    (fun edge rest _ => Reader.drawnEdge_run edge rest) (fun edge => by simp [drawnEdge])
    (fun _ _ => trivial) trivial rfl g.edges.toList
  -- The lines for states end where those for edges begin, or at the last line.
  have ends : Reader.drawnState.run (g.edges.toList.flatMap (fun edge => (drawnEdge edge).toList) ++
      "\x7d\n".toList) = none := by
    cases g.edges.toList with
    | nil => rfl
    | cons edge rest =>
      rw [List.flatMap_cons, List.append_assoc]
      exact Reader.drawnState_run_drawnEdge edge _
  have nodes := Reader.many_run (fun _ => True) _
    (fun state rest _ => Reader.drawnState_run g state rest) (fun state => by simp [drawnState])
    (fun _ _ => trivial) trivial ends g.states.toList
  have last := Reader.expect_run "\x7d\n" []
  rw [List.append_nil] at last
  refine Reader.readAll_eq ?_
  rw [toList_render pretty, drawing]
  simp only [StateT.run_bind, Reader.expect_run, Option.bind_eq_bind, Option.bind_some, nodes,
    edges, last, List.map_id', StateT.run_pure]
  rw [wf.contents_of fun edge => SortedSet.mem_toList]
  rfl

/-- The line for a state is what it consists of. -/
theorem chars_stateLine (g : Graph) (state : State) :
    (g.stateLine state).chars = (g.drawnState state).toList := by
  -- The quotes and the line break are part of longer words there.
  have opening : " [label=\"".toList = " [label=".toList ++ ['"'] := rfl
  have quote : "\"".toList = ['"'] := rfl
  have closing : "];\n".toList = "];".toList ++ ['\n'] := rfl
  simp only [stateLine, QuotedLine.chars, drawnState, String.toList_append, opening, quote,
    closing, List.append_assoc, List.cons_append, List.nil_append]

/-- The line for an edge is what it consists of. -/
theorem chars_edgeLine (edge : Edge) : (edgeLine edge).chars = (drawnEdge edge).toList := by
  -- As above, but the second quote and the brackets belong to one word.
  have opening : " [label=\"".toList = " [label=".toList ++ ['"'] := rfl
  have closing : "\"];\n".toList = '"' :: "];".toList ++ ['\n'] := rfl
  simp only [edgeLine, QuotedLine.chars, drawnEdge, String.toList_append, opening, closing,
    List.append_assoc, List.cons_append, List.nil_append]

/-- Between its head and its last line a drawing consists of quoted lines. -/
theorem toList_render_lines (pretty : writer.Pretty) (g : Graph) (label : String) :
    (g.render writer label).toList =
      (drawingHead label).toList ++ g.lines.flatMap QuotedLine.chars ++ "\x7d\n".toList := by
  -- Every line for a state or an edge is one with a text between quotes.
  simp only [toList_render pretty, lines, List.flatMap_append, List.flatMap_map, chars_stateLine,
    chars_edgeLine, List.append_assoc]

/-- The line for a state has one text between quotes. -/
theorem quotesText_stateLine (g : Graph) (state : State) : (g.stateLine state).QuotesText where
  bare c special := by
    have name := not_mem_nodeName special state
    simp only [stateLine, String.toList_append, List.mem_append, not_or]
    -- Only the name is not known, and the settings behind the label are there or not.
    rcases special with rfl | rfl <;>
      exact ⟨⟨⟨by decide, name⟩, by decide⟩, ⟨by split <;> decide, by split <;> decide⟩,
        by decide⟩
  quoted := wellQuoted_repr state

/-- The line for an edge has one text between quotes. -/
theorem quotesText_edgeLine (edge : Edge) : (edgeLine edge).QuotesText where
  bare c special := by
    have source := not_mem_nodeName special edge.source
    have target := not_mem_nodeName special edge.target
    simp only [edgeLine, String.toList_append, List.mem_append, not_or]
    -- Only the two names are not known, and these are plain.
    rcases special with rfl | rfl <;>
      exact ⟨⟨⟨⟨⟨by decide, source⟩, by decide⟩, target⟩, by decide⟩, by decide⟩
  quoted := edge.symbol.wellQuoted_text

/-- Under a label a graph is drawn by a writer as some lines. -/
structure DrawnBy (g : Graph) (writer : Writer) (label : String) (lines : List QuotedLine) :
    Prop where
  /-- The drawing is read back into what can be seen of the graph. -/
  read : ofDot label (g.render writer label) = some g.contents
  /-- The lines stand between the head of the drawing and its last line. -/
  written : (g.render writer label).toList =
    (drawingHead label).toList ++ lines.flatMap QuotedLine.chars ++ "\x7d\n".toList
  /-- The texts between quotes are the states in ascending order and then the symbols on edges. -/
  texts : lines.map QuotedLine.text =
    g.states.toList.map (·.repr.toList) ++ g.edges.toList.map (·.symbol.text.toList)
  /-- Every line has one text between quotes, and that text is well quoted. -/
  quotes : ∀ line ∈ lines, line.QuotesText

/-- A well-formed graph is drawn as the lines for its states and edges. -/
theorem WellFormed.drawnBy (wf : g.WellFormed) (pretty : writer.Pretty) (label : String) :
    g.DrawnBy writer label g.lines where
  read := wf.ofDot_render pretty label
  written := toList_render_lines pretty g label
  texts := by
    rw [lines, List.map_append, List.map_map, List.map_map]
    rfl
  quotes := by
    -- The lines for states stand in front of those for edges.
    refine List.forall_mem_append.mpr ⟨?_, ?_⟩
    · exact List.forall_mem_map.mpr fun state _ => quotesText_stateLine g state
    · exact List.forall_mem_map.mpr fun edge _ => quotesText_edgeLine edge

/--
Graphs with the same drawing under a label have the same states, start, final states and edges.

All that is assumed of the writer is that it writes every statement in a line of its own, in the
order of the calls, and that labels stand between quotes as they are. Then a drawing consists of
one line for each state and one for each edge, from which what can be seen of the graph is read
back. What a line has between quotes does not break it, and an odd number of backslashes stands in
front of every quote there, but not in front of its end.
-/
theorem dot_faithful {writer : Writer} (pretty : writer.Pretty) {g : Graph}
    (reachable : g.Reachable) (label : String) :
    (∀ h : Graph, h.Reachable → h.render writer label = g.render writer label →
      h.states = g.states ∧ h.start = g.start ∧ h.finals = g.finals ∧ h.edges = g.edges) ∧
    ∃ lines, g.DrawnBy writer label lines := by
  have drawn := reachable.wellFormed.drawnBy pretty label
  refine ⟨?_, _, drawn⟩
  intro h reachable' same
  have drawn' := reachable'.wellFormed.drawnBy pretty label
  -- What can be seen of both graphs is read from the same text.
  exact contents_eq_iff.mp (Option.some.inj (drawn'.read.symm.trans (same ▸ drawn.read)))

/--
A start that is final, and edges with separators, are drawn under a label with a quote.

The writer is the standard one, which is pretty.
-/
theorem dot_faithful_quotes : Writer.standard.Pretty ∧
    ∃ g : Graph, g.Reachable ∧ g.start = some 0 ∧ 0 ∈ g.finals ∧
    g.edges.toList.map Edge.symbol =
      [.epsilon, .char '\n', .char '"', .char '\\', .char ']', .char 'ε'] ∧
    (∀ h : Graph, h.Reachable → h.render .standard "\"];\n" = g.render .standard "\"];\n" →
      h.states = g.states ∧ h.start = g.start ∧ h.finals = g.finals ∧ h.edges = g.edges) ∧
    ∃ lines, g.DrawnBy .standard "\"];\n" lines := by
  have reachable : Reachable _ := ⟨[.newGraph "g", .createStates "g" 2,
    .addEdge "g" ⟨0, .epsilon, 0⟩, .addEdge "g" ⟨0, .char '"', 1⟩, .addEdge "g" ⟨0, .char '\n', 1⟩,
    .addEdge "g" ⟨0, .char '\\', 1⟩, .addEdge "g" ⟨0, .char ']', 1⟩, .addEdge "g" ⟨0, .char 'ε', 0⟩,
    .setStart "g" 0, .markFinal "g" 0], "g", rfl⟩
  -- The label would end its quotes, and the line after it, if it were read instead of known.
  exact ⟨Writer.standard_pretty, _, reachable, rfl, by decide, rfl,
    dot_faithful Writer.standard_pretty reachable _⟩

end Graph

end PatternAutomata
