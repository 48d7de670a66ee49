import PatternAutomata.Proofs.Builder.Assembly
import PatternAutomata.Proofs.Graph.Made
import PatternAutomata.Proofs.Pattern.Compilation
import PatternAutomata.Session

/-! Whatever commands are run in a session, all its graphs have what single operations keep. -/

namespace PatternAutomata

namespace Session

variable {s : Session} {P : Graph → Prop}

/-- The graph of a name is the one that was put under it last. -/
@[simp] theorem graph_putGraph (s : Session) (name : String) (g : Graph) :
    (s.putGraph name g).graph name = .ok g := by
  simp [putGraph, graph]

/-- Commands may be run in two rounds. -/
theorem run_append (s : Session) (first second : List Command) :
    (s.run (first ++ second)).1 = ((s.run first).1.run second).1 := by
  -- The induction runs the first commands one by one, until only the second ones are left.
  induction first generalizing s with
  | nil => rfl
  | cons command rest ih => exact ih (s.perform command).1

/-- All graphs of a session have a property. -/
def All (s : Session) (P : Graph → Prop) : Prop := ∀ entry ∈ s.graphs, P entry.2

namespace All

/-- The graph of a name is one of the graphs of a session. -/
theorem graph (all : s.All P) {name : String} {g : Graph} (found : s.graph name = .ok g) : P g := by
  -- What is looked up successfully is listed.
  unfold Session.graph at found
  split at found
  · rename_i named
    cases found
    obtain ⟨before, after, whole, _⟩ := List.lookup_eq_some_iff.mp named
    exact all (name, _) (by rw [whole]; simp)
  · cases found

/-- Without a graph all others stay as they are. -/
theorem removeGraph (all : s.All P) (name : String) : (s.removeGraph name).All P :=
  fun entry listed => all entry (List.mem_filter.mp listed).1

/-- Another graph that has the property may be put under any name. -/
theorem putGraph (all : s.All P) (name : String) {g : Graph} (has : P g) :
    (s.putGraph name g).All P := by
  intro entry listed
  -- What the name stood for before is gone, and all other graphs are kept.
  rcases List.mem_cons.mp listed with new | old
  · rw [new]
    exact has
  · exact all.removeGraph name entry old

/-- The graph of an operation may be stored if it has the property. -/
theorem store (all : s.All P) (result : String) {outcome : Except Error Graph}
    (has : ∀ g, outcome = .ok g → P g) : (s.store result outcome).1.All P := by
  -- A failure stores nothing.
  cases outcome with
  | ok g => exact all.putGraph result (has g rfl)
  | error error => exact all

/-- The graph that steps give may be stored if the operation that they do gives one like that. -/
theorem storeBuilt (all : s.All P) (name result : String) {builder : Builder}
    {steps : Assembly Graph} {outcome : Except Error (Graph × Builder)}
    (does : steps.perform builder = builder.settle outcome)
    (has : ∀ out, outcome = .ok out → P out.1) :
    (s.storeBuilt name result builder steps).1.All P := by
  -- Builders are kept apart from graphs, so it does not matter which one has been left.
  unfold Session.storeBuilt
  rw [does]
  cases outcome with
  | ok out => exact All.putGraph all result (has out rfl)
  | error error => exact all

/-- A graph may be changed in its place if the change keeps the property. -/
theorem changeGraph (all : s.All P) (name : String) {g : Graph} {change : Change}
    (has : P (g.change change).1) : (s.changeGraph name g change).1.All P :=
  all.putGraph name has

variable (kept : Kept P)

include kept

/-- A change in which no other graph is used up may be made to any graph. -/
theorem changeNamed (all : s.All P) {name : String} {change : Change}
    (alone : ∀ other, change ≠ .merge other) {outcome : Session × Except Error Reply}
    (attempted : (do
      let g ← s.graph name
      return s.changeGraph name g change) = Except.ok outcome) : outcome.1.All P := by
  obtain ⟨g, found, attempted⟩ := Outcome.bind_eq_ok.mp attempted
  cases attempted
  -- Only a merge would need to know something of another graph.
  refine all.changeGraph name (kept.change (all.graph found) _ fun other same => ?_)
  exact absurd same (alone other)

/-- A command that finds all that it names leaves the property to all graphs. -/
theorem attempt (all : s.All P) {command : Command} {outcome : Session × Except Error Reply}
    (attempted : s.attempt command = .ok outcome) : outcome.1.All P := by
  cases command with
  | newGraph result =>
    cases attempted
    exact all.store result fun g same => by cases same; exact kept.blank 0
  | compile pattern result =>
    cases attempted
    exact all.store result fun _ => kept.compile
  | copy name result =>
    -- What a command finds under a name has the property, and so has what it makes of it.
    obtain ⟨g, found, attempted⟩ := Outcome.bind_eq_ok.mp attempted
    cases attempted
    exact all.store result fun _ same => by cases same; exact all.graph found
  | convert conversion name result =>
    obtain ⟨g, _, attempted⟩ := Outcome.bind_eq_ok.mp attempted
    cases attempted
    exact all.store result fun _ => kept.convert
  | newBuilder name =>
    cases attempted
    exact all
  | literal name c result =>
    obtain ⟨builder, _, attempted⟩ := Outcome.bind_eq_ok.mp attempted
    cases attempted
    exact all.storeBuilt name result (Assembly.perform_literal c builder) fun _ => kept.literal
  | concat name left right result =>
    obtain ⟨builder, _, attempted⟩ := Outcome.bind_eq_ok.mp attempted
    obtain ⟨l, foundLeft, attempted⟩ := Outcome.bind_eq_ok.mp attempted
    obtain ⟨r, foundRight, attempted⟩ := Outcome.bind_eq_ok.mp attempted
    cases attempted
    -- The operands are gone whether or not the operation succeeds.
    exact ((all.removeGraph left).removeGraph right).storeBuilt name result
      (Assembly.perform_concat l r builder) fun _ =>
        kept.concat (all.graph foundLeft) (all.graph foundRight)
  | union name left right result =>
    obtain ⟨builder, _, attempted⟩ := Outcome.bind_eq_ok.mp attempted
    obtain ⟨l, foundLeft, attempted⟩ := Outcome.bind_eq_ok.mp attempted
    obtain ⟨r, foundRight, attempted⟩ := Outcome.bind_eq_ok.mp attempted
    cases attempted
    exact ((all.removeGraph left).removeGraph right).storeBuilt name result
      (Assembly.perform_union l r builder) fun _ =>
        kept.union (all.graph foundLeft) (all.graph foundRight)
  | star name inner result =>
    obtain ⟨builder, _, attempted⟩ := Outcome.bind_eq_ok.mp attempted
    obtain ⟨g, found, attempted⟩ := Outcome.bind_eq_ok.mp attempted
    cases attempted
    exact (all.removeGraph inner).storeBuilt name result
      (Assembly.perform_repetition g true builder) fun _ => kept.repetition (all.graph found)
  | plus name inner result =>
    obtain ⟨builder, _, attempted⟩ := Outcome.bind_eq_ok.mp attempted
    obtain ⟨g, found, attempted⟩ := Outcome.bind_eq_ok.mp attempted
    cases attempted
    exact (all.removeGraph inner).storeBuilt name result
      (Assembly.perform_repetition g false builder) fun _ => kept.repetition (all.graph found)
  | createStates name count => exact all.changeNamed kept (fun _ same => by cases same) attempted
  | addEdge name edge => exact all.changeNamed kept (fun _ same => by cases same) attempted
  | setStart name state => exact all.changeNamed kept (fun _ same => by cases same) attempted
  | markFinal name state => exact all.changeNamed kept (fun _ same => by cases same) attempted
  | markFinals name states => exact all.changeNamed kept (fun _ same => by cases same) attempted
  | merge name other =>
    obtain ⟨g, found, attempted⟩ := Outcome.bind_eq_ok.mp attempted
    obtain ⟨o, foundOther, attempted⟩ := Outcome.bind_eq_ok.mp attempted
    cases attempted
    -- The other graph may stay or go, but what is merged was there before.
    have left : (if other = name then s else s.removeGraph other).All P := by
      split
      · exact all
      · exact all.removeGraph other
    refine left.changeGraph name (kept.change (all.graph found) _ fun _ same => ?_)
    cases same
    exact all.graph foundOther
  | ask name query =>
    obtain ⟨g, found, attempted⟩ := Outcome.bind_eq_ok.mp attempted
    cases attempted
    exact all

/-- A command leaves the property to all graphs, even if it fails. -/
theorem perform (all : s.All P) (command : Command) : (s.perform command).1.All P := by
  unfold Session.perform
  split
  · -- A name was not found, so nothing has changed.
    exact all
  · rename_i attempted
    exact all.attempt kept attempted
  · -- The operation failed, and may have changed something before it did.
    rename_i attempted
    exact all.attempt kept attempted

/-- Commands leave the property to all graphs, however many there are. -/
theorem run (all : s.All P) (commands : List Command) : (s.run commands).1.All P := by
  -- What the first command leaves behind is where the others begin.
  induction commands generalizing s with
  | nil => exact all
  | cons command rest ih => exact ih (all.perform kept command)

end All

end Session

namespace Graph

/-- A graph that some commands leave under some name in a session that began without graphs. -/
def Reachable (g : Graph) : Prop :=
  ∃ commands name, (Session.run {} commands).1.graph name = .ok g

/-- A graph that can be reached has all that single operations keep. -/
theorem Reachable.of_kept {P : Graph → Prop} {g : Graph} (kept : Kept P) (reachable : g.Reachable) :
    P g := by
  obtain ⟨commands, name, found⟩ := reachable
  -- A session begins without graphs.
  have begun : Session.All {} P := fun entry listed => absurd listed List.not_mem_nil
  exact (begun.run kept commands).graph found

/-- Every graph that can be reached is well formed. -/
theorem Reachable.wellFormed {g : Graph} (reachable : g.Reachable) : g.WellFormed :=
  reachable.of_kept kept_wellFormed

/-- What a conversion makes of a graph that can be reached can be reached. -/
theorem Reachable.convert {g changed : Graph} (reachable : g.Reachable) (conversion : Conversion)
    (converted : g.convert conversion = .ok changed) : changed.Reachable := by
  obtain ⟨commands, name, found⟩ := reachable
  -- The conversion is one more command, and its result takes the name of the graph.
  refine ⟨commands ++ [.convert conversion name name], name, ?_⟩
  rw [Session.run_append]
  generalize (Session.run {} commands).1 = s at found ⊢
  have attempted : s.attempt (.convert conversion name name) =
      .ok (s.store name (.ok changed)) := by
    rw [← converted]
    exact Outcome.bind_ok found rfl
  simp [Session.run, Session.perform, attempted, Session.store]

end Graph

/-- A compiled pattern can be reached. -/
theorem reachable_of_compile {pattern : String} {g : Graph} (compiled : compile pattern = .ok g) :
    g.Reachable := by
  -- A single command stores the graph under a name.
  refine ⟨[.compile pattern "g"], "g", ?_⟩
  simp [Session.run, Session.perform, Session.attempt, compiled, Session.store]

namespace Session

/--
Whatever commands have been run, every graph is well formed, and a new state of it is new.

However it was made, its edges are in one table, which keeps no key without targets. The graph
leaves a choice exactly if this table has a silent key or one with several targets.
-/
theorem wellFormed_of_run {commands : List Command} {name : String} {g : Graph}
    (listed : (name, g) ∈ (run {} commands).1.graphs) :
    g.WellFormed ∧ g.createState.1 ∉ g.states ∧
      ∃ table : Table, (∀ other, g.Made other ↔ other = table) ∧
        (∀ p symbol, table.find p symbol ≠ some ∅ ∧
          table.targets p symbol = g.targets p symbol) ∧
        (g.isNondeterministic = true ↔ table.Branches) := by
  -- To have been made by calls is itself kept by them, and the rest follows from it.
  have begun : All {} fun g => ∃ t, g.Made t := fun entry listed => absurd listed List.not_mem_nil
  obtain ⟨table, made⟩ := begun.run kept_made commands (name, g) listed
  have wf : g.WellFormed := made.of_kept kept_wellFormed
  refine ⟨wf, wf.next_not_mem, table, fun other => ?_, fun p symbol => ?_,
    made.isNondeterministic_iff⟩
  · constructor
    · exact fun again => again.unique made
    · intro same
      rw [same]
      exact made
  · exact ⟨made.filled p symbol, made.targets_eq p symbol⟩

/--
Graphs with interleaved numbers are merged, an edge is refused, and marking stops half way.

Neither the refused character nor the unknown state is left in the graph.
-/
theorem wellFormed_of_run_interleaved :
    let commands : List Command := [.newBuilder "b", .literal "b" 'x' "g", .literal "b" 'y' "h",
      .literal "b" 'z' "i", .merge "g" "i", .merge "g" "h", .addEdge "g" ⟨1, .epsilon, 2⟩,
      .addEdge "g" ⟨1, .char 'q', 9⟩, .markFinals "g" [3, 9, 5]]
    let g : Graph := {
      states := .ofList [0, 1, 2, 3, 4, 5]
      next := 6
      edges := .ofList [⟨0, .char 'x', 1⟩, ⟨1, .epsilon, 2⟩, ⟨2, .char 'y', 3⟩, ⟨4, .char 'z', 5⟩]
      start := some 0
      finals := .ofList [1, 3]
      alphabet := .ofList ['x', 'y', 'z'] }
    ("g", g) ∈ (run {} commands).1.graphs ∧ g.WellFormed ∧ g.createState.1 ∉ g.states ∧
      ∃ table : Table, (∀ other, g.Made other ↔ other = table) ∧
        (∀ p symbol, table.find p symbol ≠ some ∅ ∧
          table.targets p symbol = g.targets p symbol) ∧
        (g.isNondeterministic = true ↔ table.Branches) := by
  intro commands g
  have listed : ("g", g) ∈ (run {} commands).1.graphs := List.Mem.head _
  exact ⟨listed, wellFormed_of_run listed⟩

end Session

end PatternAutomata
