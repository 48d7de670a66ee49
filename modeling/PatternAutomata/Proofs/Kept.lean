import PatternAutomata.Conversion
import PatternAutomata.Graph.Change
import PatternAutomata.Graph.WellFormed
import PatternAutomata.Pattern.Tree
import PatternAutomata.Proofs.Determinize.Steps

/-! What every single operation on graphs keeps, and so everything that is made of operations. -/

namespace PatternAutomata

open Outcome

/-- A property that graphs have without states, and that no successful operation takes away. -/
structure Kept (P : Graph → Prop) : Prop where
  /-- A graph without states has the property. -/
  blank : ∀ next, P { next }
  /-- A new state keeps it. -/
  createState : ∀ {g : Graph}, P g → P g.createState.2
  /-- A new edge keeps it. -/
  addEdge : ∀ {g changed : Graph} {edge : Edge}, P g → g.addEdge edge = .ok changed → P changed
  /-- A new start keeps it. -/
  setStart : ∀ {g changed : Graph} {state : State}, P g → g.setStart state = .ok changed → P changed
  /-- A new final state keeps it. -/
  markFinal : ∀ {g changed : Graph} {state : State}, P g → g.markFinal state = .ok changed →
    P changed
  /-- Another graph that has the property as well may be merged in. -/
  merge : ∀ {g other merged : Graph}, P g → P other → g.merge other = .ok merged → P merged

/-- Single operations keep graphs well formed. -/
theorem kept_wellFormed : Kept Graph.WellFormed where
  blank := Graph.WellFormed.blank
  createState wf := wf.createState
  addEdge wf added := wf.addEdge added
  setStart wf set := wf.setStart set
  markFinal wf marked := wf.markFinal marked
  merge wf wfOther merged := wf.merge wfOther merged

namespace Kept

variable {P : Graph → Prop} {g other changed : Graph}

/-- Any number of new states may be created. -/
theorem createStates (kept : Kept P) (has : P g) (count : Nat) : P (g.createStates count).2 := by
  -- The first state is created before the others.
  induction count generalizing g with
  | zero => exact has
  | succ count ih => exact ih (kept.createState has)

/-- Several states may be marked, even if this stops at an unknown one. -/
theorem markFinals (kept : Kept P) (has : P g) (states : List State) :
    P (g.markFinals states).1 := by
  -- An unknown state ends the induction early, with what has been marked before it.
  induction states generalizing g with
  | nil => exact has
  | cons state rest ih =>
    rw [Graph.markFinals]
    cases marked : g.markFinal state with
    | ok changed => exact ih (kept.markFinal has marked)
    | error error => exact has

/-- Silent edges may be added one after the other. -/
theorem addSilentEdges (kept : Kept P) (has : P g) {sources : SortedSet State} {target : State}
    (added : g.addSilentEdges sources target = .ok changed) : P changed :=
  foldlM_preserves (fun _ _ _ has added => kept.addEdge has added) has added

/-- A graph that is taken over only if there is one has what both have. -/
theorem adopt (has : P g) {outcome : Except Error Graph}
    (hasChanged : ∀ changed, outcome = .ok changed → P changed) : P (g.adopt outcome).1 := by
  -- A refused change leaves the graph that had the property before.
  cases outcome with
  | ok changed => exact hasChanged changed rfl
  | error error => exact has

/-- A change may be made to a graph, even if it fails. -/
theorem change (kept : Kept P) (has : P g) (change : Change)
    (hasOther : ∀ other, change = .merge other → P other) : P (g.change change).1 := by
  cases change with
  | createStates count => exact kept.createStates has count
  | addEdge edge => exact adopt has fun _ added => kept.addEdge has added
  | setStart state => exact adopt has fun _ set => kept.setStart has set
  | markFinal state => exact adopt has fun _ marked => kept.markFinal has marked
  | markFinals states =>
    have marked := kept.markFinals has states
    rw [Graph.change]
    -- Whether or not it has stopped, the graph is the one that marking left.
    split
    · rename_i outcome
      rwa [outcome] at marked
    · rename_i outcome
      rwa [outcome] at marked
  | merge other => exact adopt has fun _ merged => kept.merge has (hasOther other rfl) merged

section Building

variable {builder : Builder} {left right inner : Graph} {out : Graph × Builder}

/-- The automaton of a character begins without states. -/
theorem literal (kept : Kept P) {c : Char} (built : builder.literal c = .ok out) : P out.1 := by
  -- Since the whole has succeeded, each of its steps has.
  have started := kept.createState (kept.createState (kept.blank builder.next))
  obtain ⟨_, added, built⟩ := bind_eq_ok.mp built
  obtain ⟨_, set, built⟩ := bind_eq_ok.mp built
  obtain ⟨_, marked, built⟩ := bind_eq_ok.mp built
  cases built
  exact kept.markFinal (kept.setStart (kept.addEdge started added) set) marked

/-- Two graphs are merged into one without states and then linked. -/
theorem concat (kept : Kept P) (hasLeft : P left) (hasRight : P right)
    (built : builder.concat left right = .ok out) : P out.1 := by
  -- The start states are only looked up, so the first graph to speak of is the one merged into.
  obtain ⟨_, _, built⟩ := bind_eq_ok.mp built
  obtain ⟨_, _, built⟩ := bind_eq_ok.mp built
  obtain ⟨_, merged, built⟩ := bind_eq_ok.mp built
  have adopted := kept.merge (kept.blank builder.next) hasLeft merged
  obtain ⟨_, merged, built⟩ := bind_eq_ok.mp built
  have joined := kept.merge adopted hasRight merged
  obtain ⟨_, added, built⟩ := bind_eq_ok.mp built
  have linked := kept.addSilentEdges joined added
  obtain ⟨_, set, built⟩ := bind_eq_ok.mp built
  obtain ⟨_, marked, built⟩ := bind_eq_ok.mp built
  cases built
  exact foldlM_preserves (fun _ _ _ has marked => kept.markFinal has marked)
    (kept.setStart linked set) marked

/-- Two graphs are merged into one without states and then put into a frame. -/
theorem union (kept : Kept P) (hasLeft : P left) (hasRight : P right)
    (built : builder.union left right = .ok out) : P out.1 := by
  obtain ⟨_, _, built⟩ := bind_eq_ok.mp built
  obtain ⟨_, _, built⟩ := bind_eq_ok.mp built
  obtain ⟨_, merged, built⟩ := bind_eq_ok.mp built
  have adopted := kept.merge (kept.blank builder.next) hasLeft merged
  obtain ⟨_, merged, built⟩ := bind_eq_ok.mp built
  have created := kept.createState (kept.createState (kept.merge adopted hasRight merged))
  -- The new start has an edge into each graph, and each has silent edges to the new final state.
  obtain ⟨_, added, built⟩ := bind_eq_ok.mp built
  have branched := kept.addEdge created added
  obtain ⟨_, added, built⟩ := bind_eq_ok.mp built
  have branched := kept.addEdge branched added
  obtain ⟨_, added, built⟩ := bind_eq_ok.mp built
  have linked := kept.addSilentEdges branched added
  obtain ⟨_, added, built⟩ := bind_eq_ok.mp built
  have linked := kept.addSilentEdges linked added
  obtain ⟨_, set, built⟩ := bind_eq_ok.mp built
  obtain ⟨_, marked, built⟩ := bind_eq_ok.mp built
  cases built
  exact kept.markFinal (kept.setStart linked set) marked

/-- A graph is merged into one without states and then put into a loop. -/
theorem repetition (kept : Kept P) (has : P inner) {allowEmpty : Bool}
    (built : builder.repetition inner allowEmpty = .ok out) : P out.1 := by
  obtain ⟨_, _, built⟩ := bind_eq_ok.mp built
  obtain ⟨_, merged, built⟩ := bind_eq_ok.mp built
  have adopted := kept.merge (kept.blank builder.next) has merged
  have created := kept.createState (kept.createState adopted)
  obtain ⟨_, added, built⟩ := bind_eq_ok.mp built
  have entered := kept.addEdge created added
  obtain ⟨passed, added, built⟩ := bind_eq_ok.mp built
  -- The edge past the inner graph is there or not.
  have passing : P passed := by
    split at added
    · exact kept.addEdge entered added
    · cases added
      exact entered
  obtain ⟨_, added, built⟩ := bind_eq_ok.mp built
  have linked := kept.addSilentEdges passing added
  obtain ⟨_, added, built⟩ := bind_eq_ok.mp built
  have linked := kept.addSilentEdges linked added
  obtain ⟨_, set, built⟩ := bind_eq_ok.mp built
  obtain ⟨_, marked, built⟩ := bind_eq_ok.mp built
  cases built
  exact kept.markFinal (kept.setStart linked set) marked

/-- The automaton of a tree is made of operations of a builder. -/
theorem build (kept : Kept P) {tree : Tree} (builds : tree.build builder = .ok out) : P out.1 := by
  -- Both subtrees are built before the operation, whose operands are what they gave.
  induction tree generalizing builder out with
  | literal c => exact kept.literal builds
  | concat left right ihLeft ihRight =>
    obtain ⟨_, buildsLeft, builds⟩ := bind_eq_ok.mp builds
    obtain ⟨_, buildsRight, builds⟩ := bind_eq_ok.mp builds
    exact kept.concat (ihLeft buildsLeft) (ihRight buildsRight) builds
  | union left right ihLeft ihRight =>
    obtain ⟨_, buildsLeft, builds⟩ := bind_eq_ok.mp builds
    obtain ⟨_, buildsRight, builds⟩ := bind_eq_ok.mp builds
    exact kept.union (ihLeft buildsLeft) (ihRight buildsRight) builds
  | star inner ih =>
    obtain ⟨_, buildsInner, builds⟩ := bind_eq_ok.mp builds
    exact kept.repetition (ih buildsInner) builds
  | plus inner ih =>
    obtain ⟨_, buildsInner, builds⟩ := bind_eq_ok.mp builds
    exact kept.repetition (ih buildsInner) builds

end Building

section Exploring

variable {x y : Exploration} {state : State} {subset : SortedSet State}

/-- A visit creates at most one state and marks it. -/
theorem visit (kept : Kept P) (has : P x.dfa) (visited : x.visit g subset = .ok (state, y)) :
    P y.dfa := by
  obtain ⟨_, same⟩ | ⟨_, _, _, same, marked⟩ := Exploration.visit_cases visited
  · -- The set has been met before.
    rwa [same]
  · have created := kept.createState has
    rw [same]
    obtain ⟨_, marked⟩ | ⟨_, unmarked⟩ := marked
    · exact kept.markFinal created marked
    · rwa [unmarked]

/-- A character adds at most one state and one edge. -/
theorem follow (kept : Kept P) (has : P x.dfa) {c : Char}
    (followed : Exploration.follow g state subset x c = .ok y) : P y.dfa := by
  obtain ⟨_, same⟩ | ⟨_, _, _, _, visited, added, same⟩ := Exploration.follow_cases followed
  · -- The character leads nowhere.
    rwa [same]
  · rw [same]
    exact kept.addEdge (kept.visit has visited) added

/-- The characters of the alphabet are followed one after the other. -/
theorem expand (kept : Kept P) (has : P x.dfa) (expanded : Exploration.expand g state x = .ok y) :
    P y.dfa := by
  -- All characters are followed from the set that the state stood for at first.
  unfold Exploration.expand at expanded
  have onward : ∀ (y : Exploration) (c : Char) (z : Exploration), P y.dfa →
      Exploration.follow g state (x.subsetOf state) y c = .ok z → P z.dfa :=
    fun _ _ _ has followed => kept.follow has followed
  exact foldlM_preserves onward has expanded

/-- Any number of pending states may be expanded. -/
theorem explore (kept : Kept P) {bound : Nat} (has : P x.dfa)
    (explored : Exploration.explore g bound x = .ok y) : P y.dfa := by
  -- Which states are pending makes no difference to the graph.
  have onward : ∀ (x : Exploration) (k : State) (pending : List State) (x' : Exploration),
      x.pending = k :: pending → P x.dfa → Exploration.expand g k { x with pending } = .ok x' →
      P x'.dfa := by
    intro x k pending x' _ has expanded
    refine kept.expand ?_ expanded
    exact has
  exact Exploration.explore_preserves onward has explored

/-- A graph is made deterministic from nothing on. -/
theorem determinize (kept : Kept P) (determined : g.determinize = .ok changed) : P changed := by
  unfold Graph.determinize at determined
  split at determined
  · cases determined
    exact kept.blank 0
  · -- The first visit is to the set of the start.
    obtain ⟨_, visited, determined⟩ := bind_eq_ok.mp determined
    obtain ⟨_, set, determined⟩ := bind_eq_ok.mp determined
    obtain ⟨_, explored, determined⟩ := bind_eq_ok.mp determined
    cases determined
    have begun := kept.visit (kept.blank 0) visited
    exact kept.explore (kept.setStart begun set) explored

end Exploring

section Joining

variable {p : Partition} {q : Graph}

/-- A character adds at most one edge to a class. -/
theorem addClassEdge (kept : Kept P) (has : P q) {number : Nat} {state : State} {c : Char}
    (added : g.addClassEdge p number state q c = .ok changed) : P changed := by
  -- Where no edge leaves the representative there is nothing to add.
  unfold Graph.addClassEdge at added
  split at added
  · cases added
    exact has
  · exact kept.addEdge has added

/-- A class gets edges and may become final. -/
theorem addClass (kept : Kept P) (has : P q) {number : Nat}
    (added : g.addClass p q number = .ok changed) : P changed := by
  unfold Graph.addClass at added
  split at added
  · cases added
    exact has
  · -- The edges come first, and the class is final if its representative is.
    obtain ⟨_, edges, added⟩ := bind_eq_ok.mp added
    have linked := foldlM_preserves (fun _ _ _ has added => kept.addClassEdge has added) has edges
    split at added
    · exact kept.markFinal linked added
    · cases added
      exact linked

/-- The classes of a partition become states, get their edges, and one becomes the start. -/
theorem quotient (kept : Kept P) (divided : g.quotient p = .ok changed) : P changed := by
  -- All states are there before any edge is.
  have created := kept.createStates (kept.blank 0) p.count
  obtain ⟨_, added, divided⟩ := bind_eq_ok.mp divided
  have filled := foldlM_preserves (fun _ _ _ has added => kept.addClass has added) created added
  unfold Graph.setStart? at divided
  split at divided
  · cases divided
    exact filled
  · exact kept.setStart filled divided

/-- A minimized graph is made from nothing on. -/
theorem minimize (kept : Kept P) (minimized : g.minimize = .ok changed) : P changed := by
  -- Whether or not the graph was made deterministic before, only its quotient is new.
  obtain ⟨dfa, _, joined⟩ := bind_eq_ok.mp minimized
  unfold Graph.joinAlike at joined
  split at joined
  · cases joined
    exact kept.blank 0
  · exact kept.quotient joined

/-- A conversion makes a graph of which nothing is taken from the graph that is converted. -/
theorem convert (kept : Kept P) {conversion : Conversion}
    (converted : g.convert conversion = .ok changed) : P changed := by
  cases conversion with
  | determinize => exact kept.determinize converted
  | minimize => exact kept.minimize converted

end Joining

end Kept

end PatternAutomata
