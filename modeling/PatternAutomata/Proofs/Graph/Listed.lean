import PatternAutomata.Graph.Listed
import PatternAutomata.Proofs.Session
import PatternAutomata.Proofs.Text.Reader

/-! A listing shows every edge once, under its source, and is read back into what it shows. -/

namespace PatternAutomata

namespace Reader

/-- A listed edge is read where it stands, unless another digit follows. -/
theorem listedEdge_run (edge : Edge) {rest : List Char}
    (ends : ∀ c ∈ rest.head?, c.isDigit = false) :
    listedEdge.run ((Graph.listedEdge edge).toList ++ rest) =
      some ((edge.symbol, edge.target), rest) := by
  -- The target is read up to its last digit, since no digit follows.
  simp only [listedEdge, Graph.listedEdge, String.toList_append, List.append_assoc,
    StateT.run_bind, Option.bind_eq_bind, expect_run, symbol_run, number_run _ _ ends,
    Option.bind_some, StateT.run_pure]
  rfl

/-- A line is read where it stands, whatever follows. -/
theorem listedState_run (line : Line) (rest : List Char) :
    listedState.run (line.text.toList ++ rest) = some (line, rest) := by
  -- Each edge is followed by a blank or by the end of the line, and so by no digit.
  have edges := many_run (∀ c ∈ ·.head?, c.isDigit = false) ("\n".toList ++ rest)
    (fun edge _ => listedEdge_run edge) (fun edge => by simp [Graph.listedEdge])
    (fun edge _ => by simp [Graph.listedEdge]) (by simp) rfl line.leaving
  have same : line.leaving.map (fun edge => (edge.symbol, edge.target)) = line.edges := by
    rw [Line.leaving, List.map_map]
    exact List.map_id _
  have number := fun rest => number_run line.node.state (":".toList ++ rest) (by simp)
  have begins := fun rest => choose_run "->" "  " (line.node.begins = true) rest fun _ => rfl
  have final := fun rest => choose_run "*" " " (line.node.final = true) rest fun _ => rfl
  simp only [listedState, Line.text, String.toList_append, String.toList_join, List.flatMap_map,
    List.append_assoc, StateT.run_bind, Option.bind_eq_bind, Option.bind_some, begins, final,
    Bool.decide_eq_true, number, expect_run, edges, same, StateT.run_pure]
  rfl

end Reader

namespace Graph

variable {g : Graph} {state : State} {edge : Edge}

/-- The edges in the line of a state are those that leave it. -/
theorem leaving_line (g : Graph) (state : State) : (g.line state).leaving = g.outgoing state := by
  -- The source of an edge is not listed, but it is the state of the line.
  rw [Line.leaving, line, List.map_map]
  refine (List.map_congr_left ?_).trans (List.map_id _)
  intro edge leaves
  obtain ⟨-, rfl⟩ := mem_outgoing.mp leaves
  rfl

/-- The line of a state has the text that is listed for the state. -/
theorem text_line (g : Graph) (state : State) : (g.line state).text = g.listedState state := by
  -- What the record says of the start is the same test, with a truth value in between.
  have begins : (if (g.line state).node.begins then "->" else "  ") =
      if g.start = some state then "->" else "  " :=
    ite_congr decide_eq_true_eq (fun _ => rfl) fun _ => rfl
  rw [Line.text, leaving_line, begins]
  rfl

/-- The lines of some states are those of their nodes. -/
theorem nodes_lines (g : Graph) (states : List State) :
    (states.map g.line).map Line.node = states.map g.node := by
  rw [List.map_map]
  rfl

/-- The outgoing edges of all states are all edges. -/
theorem mem_flatMap_outgoing (wf : g.WellFormed) :
    edge ∈ g.states.toList.flatMap g.outgoing ↔ edge ∈ g.edges := by
  simpa using wf.source_mem edge

/-- Among the outgoing edges of all states every edge is found once. -/
theorem count_outgoing (wf : g.WellFormed) (edge : Edge) :
    (g.states.toList.flatMap g.outgoing).count edge = if edge ∈ g.edges then 1 else 0 := by
  -- Edges that leave different states are different, and no state is listed twice.
  have distinct : (g.states.toList.flatMap g.outgoing).Nodup := by
    refine List.pairwise_flatMap.mpr ⟨fun state _ => g.edges.nodup_toList.filter _, ?_⟩
    refine g.states.nodup_toList.imp ?_
    rintro p q apart e leaves f leaves' rfl
    exact apart ((mem_outgoing.mp leaves).2.symm.trans (mem_outgoing.mp leaves').2)
  rw [distinct.count]
  simp only [mem_flatMap_outgoing wf]

/-- Edges in ascending order have sources in ascending order. -/
theorem source_le_of_compare {first second : Edge} (smaller : compare first second = .lt) :
    first.source ≤ second.source := by
  -- The source is compared first, and the rest only if sources are equal.
  have sources : compare first.source second.source ≠ .gt := by
    intro greater
    have reversed : compare first second = .gt := by
      change (compare first.source second.source).then _ = _
      rw [greater]
      rfl
    cases smaller.symm.trans reversed
  exact Nat.isLE_compare.mp (Ordering.isLE_iff_ne_gt.mpr sources)

/-- From the first edge that is not in front of a state, the edges of the state come first. -/
theorem takeWhile_source {edges : List Edge} (ascending : edges.Pairwise (compare · · = .lt))
    (behind : ∀ edge ∈ edges, state ≤ edge.source) :
    edges.takeWhile (·.source = state) = edges.filter (·.source = state) := by
  induction edges with
  | nil => rfl
  | cons edge rest ih =>
    obtain ⟨first, later⟩ := List.pairwise_cons.mp ascending
    obtain ⟨here, behind⟩ := List.forall_mem_cons.mp behind
    by_cases leaves : edge.source = state
    · simp [leaves, ih later behind]
    · -- All later edges leave larger states.
      have none : rest.filter (·.source = state) = [] := by
        refine List.filter_eq_nil_iff.mpr fun other member => ?_
        intro found
        have same : other.source = state := of_decide_eq_true found
        exact leaves (Nat.le_antisymm (same ▸ source_le_of_compare (first other member)) here)
      simp [leaves, none]

/-- No symbol comes before epsilon, so edges are in front of a state if their sources are. -/
theorem inFront_iff : (compare edge.source state).then (compare edge.symbol .epsilon) = .lt ↔
    edge.source < state := by
  -- No symbol comes before the silent one, so that the states alone decide.
  have least : compare edge.symbol .epsilon ≠ .lt := by
    cases edge.symbol <;> exact nofun
  rw [Ordering.then_eq_lt, Nat.compare_eq_lt]
  exact or_iff_left fun both => least both.2

/-- Going through the edges from the first one of a state finds all edges that leave the state. -/
theorem scanned_eq_outgoing (g : Graph) (state : State) : g.scanned state = g.outgoing state := by
  -- Up to the first edge of the state nothing is selected, and from there on it comes first.
  have ascending := g.edges.ascending
  rw [scanned, outgoing]
  simp only [inFront_iff]
  generalize g.edges.toList = edges at ascending ⊢
  induction edges with
  | nil => rfl
  | cons edge rest ih =>
    obtain ⟨first, later⟩ := List.pairwise_cons.mp ascending
    by_cases inFront : edge.source < state
    · rw [List.dropWhile_cons_of_pos (by simpa using inFront),
        List.filter_cons_of_neg (by simpa using Nat.ne_of_lt inFront)]
      exact ih later
    · rw [List.dropWhile_cons_of_neg (by simpa using inFront)]
      refine takeWhile_source ascending (List.forall_mem_cons.mpr ⟨Nat.le_of_not_lt inFront, ?_⟩)
      intro other member
      exact Nat.le_trans (Nat.le_of_not_lt inFront) (source_le_of_compare (first other member))

/-- A listing consists of the lines of all states. -/
theorem listing_eq (g : Graph) :
    g.listing = String.join ((g.states.toList.map g.line).map Line.text) := by
  rw [listing, List.map_map]
  -- Both sides join the lines of the same states in the same order.
  exact congrArg String.join (List.map_congr_left fun state _ => (text_line g state).symm)

/-- What some lines say is read back line by line. -/
theorem ofListing_join (lines : List Line) :
    ofListing (String.join (lines.map Line.text)) = some lines := by
  -- A line is read whatever follows, since it ends with a line break.
  have read := Reader.many_run (fun _ => True) []
    (fun line rest _ => Reader.listedState_run line rest) (fun line => by simp [Line.text])
    (fun _ _ => trivial) trivial rfl lines
  rw [List.map_id', List.append_nil] at read
  refine Reader.readAll_eq ?_
  rw [String.toList_join, List.flatMap_map]
  exact read

/-- The lines of a well-formed graph make up what can be seen of it. -/
theorem contents_ofLines (wf : g.WellFormed) :
    Contents.ofLines (g.states.toList.map g.line) = g.contents := by
  rw [Contents.ofLines, nodes_lines]
  -- Each edge is listed under its source, which is one of the states.
  refine wf.contents_of fun edge => ?_
  rw [List.flatMap_map]
  simp only [leaving_line, mem_flatMap_outgoing wf]

/-- Some lines list a graph, and they are found in its listing. -/
structure ListedIn (g : Graph) (lines : List Line) : Prop where
  /-- The listing consists of the lines. -/
  text : g.listing = String.join (lines.map Line.text)
  /-- The lines are read from the listing. -/
  read : ofListing g.listing = some lines
  /-- The lines make up what can be seen of the graph. -/
  contents : Contents.ofLines lines = g.contents
  /-- There is one line for each state in ascending order, with the marks of the state. -/
  nodes : lines.map Line.node = g.states.toList.map g.node
  /-- A line has the edges that are found by going through those of the graph from its state on. -/
  scanned : ∀ line ∈ lines, line.leaving = g.scanned line.node.state
  /-- Every edge is found once, in the line of its source, and nothing else is. -/
  once : ∀ edge, (lines.flatMap Line.leaving).count edge = if edge ∈ g.edges then 1 else 0

/-- A well-formed graph is listed in the lines of its states. -/
theorem WellFormed.listedIn (wf : g.WellFormed) : g.ListedIn (g.states.toList.map g.line) where
  text := listing_eq g
  read := by rw [listing_eq, ofListing_join]
  contents := contents_ofLines wf
  nodes := nodes_lines g g.states.toList
  scanned line listed := by
    obtain ⟨state, -, rfl⟩ := List.mem_map.mp listed
    rw [leaving_line, scanned_eq_outgoing]
    rfl
  once edge := by
    rw [List.flatMap_map]
    simp only [leaving_line, count_outgoing wf]

/--
Graphs with the same listing have the same states, start, final states and edges.

A listing is read back into lines that show each state once with its marks, and each edge once with
its source, whatever characters stand on the edges.
-/
theorem listing_faithful (reachable : g.Reachable) :
    (∀ h : Graph, h.Reachable → h.listing = g.listing →
      h.states = g.states ∧ h.start = g.start ∧ h.finals = g.finals ∧ h.edges = g.edges) ∧
    ∃ lines, g.ListedIn lines := by
  have listed := reachable.wellFormed.listedIn
  refine ⟨?_, _, listed⟩
  intro h reachable' same
  have listed' := reachable'.wellFormed.listedIn
  -- The lines of both graphs are read from the same text.
  have lines := Option.some.inj (listed'.read.symm.trans (same ▸ listed.read))
  rw [← contents_eq_iff, ← listed.contents, ← listed'.contents, lines]

/-- Blanks, arrows, line breaks and the letter epsilon may stand on edges in a listing. -/
theorem listing_faithful_separators : ∃ g : Graph, g.Reachable ∧
    g.listing = "->*0: ε->0  ->1 \\u\x7b3b5\x7d->1\n" ++
      "   1: \\n->0 \\\"->0 -->1 :->0 >->0 \\\\->1\n" ∧
    (∀ h : Graph, h.Reachable → h.listing = g.listing →
      h.states = g.states ∧ h.start = g.start ∧ h.finals = g.finals ∧ h.edges = g.edges) ∧
    ∃ lines, g.ListedIn lines := by
  have reachable : Reachable _ := ⟨[.newGraph "g", .createStates "g" 2,
    .addEdge "g" ⟨0, .epsilon, 0⟩, .addEdge "g" ⟨0, .char 'ε', 1⟩, .addEdge "g" ⟨0, .char ' ', 1⟩,
    .addEdge "g" ⟨1, .char '-', 1⟩, .addEdge "g" ⟨1, .char '>', 0⟩, .addEdge "g" ⟨1, .char ':', 0⟩,
    .addEdge "g" ⟨1, .char '\n', 0⟩, .addEdge "g" ⟨1, .char '"', 0⟩,
    .addEdge "g" ⟨1, .char '\\', 1⟩, .setStart "g" 0, .markFinal "g" 0], "g", rfl⟩
  exact ⟨_, reachable, by rfl, listing_faithful reachable⟩

end Graph

end PatternAutomata
