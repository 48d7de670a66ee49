import PatternAutomata.Builder
import PatternAutomata.Proofs.Graph.Basic
import PatternAutomata.Proofs.Kept

/-! When the operations of a builder succeed, and the graphs that they give then. -/

namespace PatternAutomata

namespace Graph

/-- Silent edges from each of some states to one state. -/
def silentEdges (sources : SortedSet State) (target : State) : List Edge :=
  -- They are in the order in which they are added.
  sources.toList.map fun source => ⟨source, .epsilon, target⟩

/-- The silent edges lead from the given states to the given state. -/
@[simp] theorem mem_silentEdges {sources : SortedSet State} {target : State} {edge : Edge} :
    edge ∈ silentEdges sources target ↔
      edge.source ∈ sources ∧ edge.symbol = .epsilon ∧ edge.target = target := by
  rw [silentEdges, List.mem_map]
  -- An edge is given by its three parts, two of which are the same for all.
  constructor
  · intro listed
    obtain ⟨source, member, same⟩ := listed
    subst same
    exact ⟨member, rfl, rfl⟩
  · intro found
    obtain ⟨source, symbol, target_⟩ := found
    exact ⟨edge.source, source, by rw [← symbol, ← target_]⟩

/-- One more edge between known states is added behind others. -/
theorem addEdge_withEdges {g : Graph} (before : List Edge) {edge : Edge}
    (source : edge.source ∈ g.states) (target : edge.target ∈ g.states) :
    (g.withEdges before).addEdge edge = .ok (g.withEdges (before ++ [edge])) := by
  rw [withEdges_append]
  -- Adding edges adds no states, so the ends are known as before.
  exact addEdge_eq (by rwa [states_withEdges]) (by rwa [states_withEdges])

/-- One more edge between known states is added behind others, or left out. -/
theorem addEdge_if_withEdges {g : Graph} (before : List Edge) (edge : Edge) {wanted : Bool}
    (source : edge.source ∈ g.states) (target : edge.target ∈ g.states) :
    (if wanted then (g.withEdges before).addEdge edge else .ok (g.withEdges before)) =
      .ok (g.withEdges (before ++ if wanted then [edge] else [])) := by
  -- An edge that is not wanted makes the list no longer.
  cases wanted with
  | false => simp
  | true => exact addEdge_withEdges before source target

/-- Silent edges between known states are added behind others. -/
theorem addSilentEdges_withEdges {g : Graph} (before : List Edge) {sources : SortedSet State}
    {target : State} (known : ∀ source ∈ sources, source ∈ g.states)
    (target_mem : target ∈ g.states) :
    (g.withEdges before).addSilentEdges sources target =
      .ok (g.withEdges (before ++ silentEdges sources target)) := by
  -- The loop over the sources is a loop over the edges.
  have looped : (silentEdges sources target).foldlM addEdge (g.withEdges before) =
      .ok (g.withEdges (before ++ silentEdges sources target)) := by
    rw [withEdges_append]
    refine foldlM_addEdge fun edge listed => ?_
    obtain ⟨source, _, same⟩ := mem_silentEdges.mp listed
    rw [states_withEdges]
    exact ⟨known _ source, same ▸ target_mem⟩
  rw [← looped, silentEdges, List.foldlM_map]
  rfl

/-- Known states are made final one after the other. -/
theorem foldlM_markFinal {g : Graph} {states : SortedSet State}
    (known : ∀ state ∈ states, state ∈ g.states) :
    states.toList.foldlM markFinal g = .ok { g with finals := states ∪ g.finals } := by
  -- The final states collected so far are those from before and those gone through.
  have general : ∀ (list : List State) (g : Graph), (∀ state ∈ list, state ∈ g.states) →
      ∃ finals, list.foldlM markFinal g = .ok { g with finals } ∧
        ∀ k, k ∈ finals ↔ k ∈ list ∨ k ∈ g.finals := by
    intro list
    induction list with
    | nil =>
      intro g _
      exact ⟨g.finals, rfl, by simp⟩
    | cons state rest ih =>
      intro g known
      obtain ⟨finals, looped, mem⟩ := ih { g with finals := insert state g.finals }
        fun later member => known later (List.mem_cons_of_mem _ member)
      refine ⟨finals, ?_, fun k => ?_⟩
      · rw [List.foldlM_cons, markFinal_eq (known state List.mem_cons_self), Outcome.ok_bind,
          looped]
      · have inserted : k ∈ insert state g.finals ↔ k = state ∨ k ∈ g.finals := SortedSet.mem_insert
        rw [mem, inserted, List.mem_cons, or_left_comm, or_assoc]
  obtain ⟨finals, looped, mem⟩ := general states.toList g known
  have same : finals = states ∪ g.finals := by
    apply SortedSet.ext
    intro k
    rw [mem, SortedSet.mem_union, SortedSet.mem_toList]
  rw [looped, same]

/-- Two new states around a graph, where the first is the start and the second alone is final. -/
def framed (g : Graph) (edges : List Edge) : Graph :=
  { g.createState.2.createState.2.withEdges edges with
    -- The first of the two new states is the start, and the second one the only final state.
    start := some g.next
    finals := {g.next + 1} }

section Framed

variable {g : Graph} {edges : List Edge}

/-- Two new states are numbered from the next number on. -/
theorem mem_states_created {state : State} :
    state ∈ g.createState.2.createState.2.states ↔
      state = g.next + 1 ∨ state = g.next ∨ state ∈ g.states := by
  show state ∈ insert (g.next + 1) (insert g.next g.states) ↔ _
  rw [SortedSet.mem_insert, SortedSet.mem_insert]

/-- The states are those of the graph and the two new ones. -/
@[simp] theorem mem_states_framed {state : State} :
    state ∈ (g.framed edges).states ↔ state = g.next + 1 ∨ state = g.next ∨ state ∈ g.states := by
  show state ∈ (g.createState.2.createState.2.withEdges edges).states ↔ _
  -- Neither the edges nor the marks have added states.
  rw [states_withEdges, mem_states_created]

/-- The two new states follow each other. -/
theorem mem_states_framed_range {state : State} :
    state ∈ (g.framed edges).states ↔ state ∈ g.states ∨ state ∈ List.range' g.next 2 := by
  rw [mem_states_framed, List.mem_range'_1]
  -- A list of two numbers has the first one and its successor.
  grind

/-- The two new states take two numbers. -/
@[simp] theorem next_framed : (g.framed edges).next = g.next + 2 :=
  next_withEdges ..

/-- The edges are those of the graph and the additional ones. -/
@[simp] theorem mem_edges_framed {edge : Edge} :
    edge ∈ (g.framed edges).edges ↔ edge ∈ g.edges ∨ edge ∈ edges :=
  mem_edges_withEdges

/-- The first of the two new states becomes the start. -/
theorem setStart_created :
    (g.createState.2.createState.2.withEdges edges).setStart g.next =
      .ok { g.createState.2.createState.2.withEdges edges with start := some g.next } := by
  apply setStart_eq
  -- The start is one of the two states that have just been created.
  rw [states_withEdges, mem_states_created]
  exact Or.inr (Or.inl rfl)

/-- The second one becomes final, which completes the frame if no other state is final. -/
theorem markFinal_created (bare : g.finals = ∅) :
    ({ g.createState.2.createState.2.withEdges edges with start := some g.next } : Graph).markFinal
      (g.next + 1) = .ok (g.framed edges) := by
  -- Neither the new states nor the additional edges have made anything final.
  have only : (g.createState.2.createState.2.withEdges edges).finals = ∅ :=
    (finals_withEdges ..).trans bare
  rw [markFinal_eq, only]
  · rfl
  · show g.next + 1 ∈ (g.createState.2.createState.2.withEdges edges).states
    rw [states_withEdges, mem_states_created]
    exact Or.inl rfl

end Framed

/-- A state can be asked for as the start exactly when it is the start. -/
theorem startState_eq_ok {g : Graph} {state : State} :
    g.startState = .ok state ↔ g.start = some state := by
  unfold startState
  -- Only a missing start is refused.
  cases g.start <;> simp

/-- Where there is no start, none can be asked for. -/
theorem startState_eq_error {g : Graph} (bare : g.start = none) :
    g.startState = .error .missingStart := by
  rw [startState, bare]

end Graph

namespace Builder

open PatternAutomata.Graph

/-- Two graphs can be combined when both have a start and they share no state. -/
structure Combinable (left right : Graph) (leftStart rightStart : State) : Prop where
  /-- The left graph has a start. -/
  leftBegins : left.start = some leftStart
  /-- The right graph has a start. -/
  rightBegins : right.start = some rightStart
  /-- No state belongs to both graphs. -/
  disjoint : ∀ state ∈ left.states, state ∉ right.states

/-- The states and edges of a graph, after which a builder goes on numbering. -/
def adopted (builder : Builder) (g : Graph) : Graph :=
  { states := g.states
    -- The counter begins where the builder stands, and is raised by merging.
    next := max builder.next g.next
    edges := g.edges
    alphabet := g.alphabet }

/-- The states and edges of two graphs, after which a builder goes on numbering. -/
def joined (builder : Builder) (left right : Graph) : Graph :=
  { states := left.states ∪ right.states
    -- The counter is raised twice, by one graph after the other.
    next := max (max builder.next left.next) right.next
    edges := left.edges ∪ right.edges
    alphabet := left.alphabet ∪ right.alphabet }

variable {builder : Builder} {left right inner : Graph} {leftStart rightStart : State}

/-- What is released is the graph. -/
@[simp] theorem release_fst (builder : Builder) (g : Graph) : (builder.release g).1 = g := rfl

/-- The states taken over are those of the graph. -/
@[simp] theorem mem_states_adopted {state : State} :
    state ∈ (builder.adopted inner).states ↔ state ∈ inner.states :=
  Iff.rfl

/-- The states taken over are those of both graphs. -/
@[simp] theorem mem_states_joined {state : State} :
    state ∈ (builder.joined left right).states ↔ state ∈ left.states ∨ state ∈ right.states :=
  SortedSet.mem_union

/-- The edges taken over are those of the graph. -/
@[simp] theorem mem_edges_adopted {edge : Edge} :
    edge ∈ (builder.adopted inner).edges ↔ edge ∈ inner.edges :=
  Iff.rfl

/-- The edges taken over are those of both graphs. -/
@[simp] theorem mem_edges_joined {edge : Edge} :
    edge ∈ (builder.joined left right).edges ↔ edge ∈ left.edges ∨ edge ∈ right.edges :=
  SortedSet.mem_union

/-- A blank graph takes over any graph. -/
theorem merge_blank_eq (builder : Builder) (g : Graph) :
    builder.blank.merge g = .ok (builder.adopted g) :=
  merge_eq fun state none => absurd none (SortedSet.not_mem_empty state)

/-- A second graph is taken over if it shares no state with the first. -/
theorem merge_adopted_eq (ready : Combinable left right leftStart rightStart) :
    (builder.adopted left).merge right = .ok (builder.joined left right) :=
  merge_eq ready.disjoint

/-- What is taken over is well formed. -/
theorem wellFormed_adopted (wf : inner.WellFormed) : (builder.adopted inner).WellFormed :=
  (WellFormed.blank builder.next).merge wf (merge_blank_eq builder inner)

/-- Two graphs that are taken over are well formed if they share no state. -/
theorem wellFormed_joined (wfLeft : left.WellFormed) (wfRight : right.WellFormed)
    (ready : Combinable left right leftStart rightStart) :
    (builder.joined left right).WellFormed :=
  -- The graphs are merged one after the other, and each merge is a single operation.
  (wellFormed_adopted wfLeft).merge wfRight (merge_adopted_eq ready)

/-- The graph for one character. -/
def literalGraph (builder : Builder) (c : Char) : Graph :=
  builder.blank.framed [⟨builder.next, .char c, builder.next + 1⟩]

/-- The graph for one input after another. -/
def concatGraph (builder : Builder) (left right : Graph) (rightStart : State) : Graph :=
  { (builder.joined left right).withEdges (silentEdges left.finals rightStart) with
    -- The start and the final states are those of either side, so no state is new.
    start := left.start
    finals := right.finals }

/-- The graph for either of two inputs. -/
def unionGraph (builder : Builder) (left right : Graph) (leftStart rightStart : State) : Graph :=
  let g := builder.joined left right
  -- A new start leads to both starts, and all final states lead to a new end.
  g.framed ([⟨g.next, .epsilon, leftStart⟩, ⟨g.next, .epsilon, rightStart⟩] ++
    silentEdges left.finals (g.next + 1) ++ silentEdges right.finals (g.next + 1))

/-- The graph for repeated inputs. -/
def repetitionGraph (builder : Builder) (inner : Graph) (allowEmpty : Bool) (innerStart : State) :
    Graph :=
  let g := builder.adopted inner
  g.framed ([⟨g.next, .epsilon, innerStart⟩] ++
    -- The inner automaton is passed by only where nothing may be read.
    (if allowEmpty then [⟨g.next, .epsilon, g.next + 1⟩] else []) ++
    silentEdges inner.finals innerStart ++ silentEdges inner.finals (g.next + 1))

section States

variable {state : State}

/-- The graph for one character has two new states. -/
theorem mem_states_literalGraph {c : Char} :
    state ∈ (builder.literalGraph c).states ↔ state ∈ List.range' builder.next 2 := by
  rw [literalGraph, mem_states_framed_range]
  -- Apart from the two new states there are none.
  exact or_iff_right (SortedSet.not_mem_empty state)

/-- The graph for one input after another has no states but those of both graphs. -/
theorem mem_states_concatGraph :
    state ∈ (builder.concatGraph left right rightStart).states ↔
      state ∈ left.states ∨ state ∈ right.states := by
  show state ∈ ((builder.joined left right).withEdges _).states ↔ _
  -- The silent edges between both sides add no states.
  rw [states_withEdges, mem_states_joined]

/-- The graph for either of two inputs has the states of both graphs and two new ones. -/
theorem mem_states_unionGraph :
    state ∈ (builder.unionGraph left right leftStart rightStart).states ↔
      (state ∈ left.states ∨ state ∈ right.states) ∨
        state ∈ List.range' (builder.joined left right).next 2 := by
  rw [unionGraph, mem_states_framed_range, mem_states_joined]

/-- The graph for repeated inputs has the states of the graph and two new ones. -/
theorem mem_states_repetitionGraph {allowEmpty : Bool} {innerStart : State} :
    state ∈ (builder.repetitionGraph inner allowEmpty innerStart).states ↔
      state ∈ inner.states ∨ state ∈ List.range' (builder.adopted inner).next 2 := by
  rw [repetitionGraph, mem_states_framed_range, mem_states_adopted]

end States

/-- Taking over two graphs does not take the numbering back. -/
theorem next_le_joined (builder : Builder) (left right : Graph) :
    builder.next ≤ (builder.joined left right).next :=
  Nat.le_trans (Nat.le_max_left ..) (Nat.le_max_left ..)

/-- Taking over a graph does not take the numbering back. -/
theorem next_le_adopted (builder : Builder) (inner : Graph) :
    builder.next ≤ (builder.adopted inner).next :=
  Nat.le_max_left ..

/-- A character always gets its graph. -/
theorem literal_eq (builder : Builder) (c : Char) :
    builder.literal c = .ok (builder.release (literalGraph builder c)) := by
  -- Both ends of the edge have just been created.
  have first := (mem_states_created (g := builder.blank)).mpr (Or.inr (Or.inl rfl))
  have second := (mem_states_created (g := builder.blank)).mpr (Or.inl rfl)
  refine Outcome.bind_ok (addEdge_withEdges [] first second) ?_
  refine Outcome.bind_ok setStart_created ?_
  exact Outcome.bind_ok (markFinal_created (g := builder.blank) rfl) rfl

/-- A combination that gets past its beginning is one of combinable graphs. -/
theorem combinable_of_ok {α : Type} {onward : State → State → Graph → Except Error α} {out : α}
    (built : (do
      let leftStart ← left.startState
      let rightStart ← right.startState
      let g ← builder.blank.merge left
      let g ← g.merge right
      onward leftStart rightStart g) = .ok out) :
    ∃ leftStart rightStart, Combinable left right leftStart rightStart := by
  obtain ⟨leftStart, leftBegins, built⟩ := Outcome.bind_eq_ok.mp built
  obtain ⟨rightStart, rightBegins, built⟩ := Outcome.bind_eq_ok.mp built
  obtain ⟨g, adopts, built⟩ := Outcome.bind_eq_ok.mp built
  obtain ⟨_, merged, _⟩ := Outcome.bind_eq_ok.mp built
  -- What the blank graph has taken over are the states of the left graph.
  rw [merge_blank_eq] at adopts
  cases adopts
  have disjoint := (merge_cases merged).1
  exact ⟨leftStart, rightStart, startState_eq_ok.mp leftBegins, startState_eq_ok.mp rightBegins,
    disjoint⟩

/-- Graphs with starts and without shared states are put after each other. -/
theorem concat_ok (wfLeft : left.WellFormed) (wfRight : right.WellFormed)
    (ready : Combinable left right leftStart rightStart) :
    builder.concat left right =
      .ok (builder.release (builder.concatGraph left right rightStart)) := by
  -- All states that the operations name come from the two graphs.
  have fromLeft : ∀ state ∈ left.states, state ∈ (builder.joined left right).states :=
    fun state member => SortedSet.mem_union.mpr (Or.inl member)
  have fromRight : ∀ state ∈ right.states, state ∈ (builder.joined left right).states :=
    fun state member => SortedSet.mem_union.mpr (Or.inr member)
  have linked := addSilentEdges_withEdges []
    (fun state final => fromLeft state (wfLeft.finals_mem state final))
    (fromRight rightStart (wfRight.start_mem rightStart ready.rightBegins))
  refine Outcome.bind_ok (startState_eq_ok.mpr ready.leftBegins) ?_
  refine Outcome.bind_ok (startState_eq_ok.mpr ready.rightBegins) ?_
  refine Outcome.bind_ok (merge_blank_eq builder left) ?_
  refine Outcome.bind_ok (merge_adopted_eq ready) ?_
  refine Outcome.bind_ok linked ?_
  refine Outcome.bind_ok (setStart_eq ?_) ?_
  · rw [states_withEdges]
    exact fromLeft leftStart (wfLeft.start_mem leftStart ready.leftBegins)
  refine Outcome.bind_ok (foldlM_markFinal ?_) ?_
  · intro state final
    show state ∈ ((builder.joined left right).withEdges _).states
    rw [states_withEdges]
    exact fromRight state (wfRight.finals_mem state final)
  -- Nothing else is final, since the graph began without final states.
  have bare : ((builder.joined left right).withEdges
      (silentEdges left.finals rightStart)).finals = ∅ := finals_withEdges ..
  show Except.ok (builder.release { (builder.joined left right).withEdges
    (silentEdges left.finals rightStart) with
      start := some leftStart
      finals := right.finals ∪ ((builder.joined left right).withEdges
        (silentEdges left.finals rightStart)).finals }) = _
  rw [bare, SortedSet.union_empty, ← ready.leftBegins]
  rfl

/-- Graphs with starts and without shared states are put beside each other. -/
theorem union_ok (wfLeft : left.WellFormed) (wfRight : right.WellFormed)
    (ready : Combinable left right leftStart rightStart) :
    builder.union left right =
      .ok (builder.release (builder.unionGraph left right leftStart rightStart)) := by
  -- All states that the operations name come from the two graphs or have just been created.
  have first := (mem_states_created (g := builder.joined left right)).mpr (Or.inr (Or.inl rfl))
  have second := (mem_states_created (g := builder.joined left right)).mpr (Or.inl rfl)
  have fromLeft : ∀ state ∈ left.states,
      state ∈ (builder.joined left right).createState.2.createState.2.states :=
    fun state member =>
      mem_states_created.mpr (Or.inr (Or.inr (SortedSet.mem_union.mpr (Or.inl member))))
  have fromRight : ∀ state ∈ right.states,
      state ∈ (builder.joined left right).createState.2.createState.2.states :=
    fun state member =>
      mem_states_created.mpr (Or.inr (Or.inr (SortedSet.mem_union.mpr (Or.inr member))))
  refine Outcome.bind_ok (startState_eq_ok.mpr ready.leftBegins) ?_
  refine Outcome.bind_ok (startState_eq_ok.mpr ready.rightBegins) ?_
  refine Outcome.bind_ok (merge_blank_eq builder left) ?_
  refine Outcome.bind_ok (merge_adopted_eq ready) ?_
  refine Outcome.bind_ok (addEdge_withEdges [] first
    (fromLeft leftStart (wfLeft.start_mem leftStart ready.leftBegins))) ?_
  refine Outcome.bind_ok (addEdge_withEdges _ first
    (fromRight rightStart (wfRight.start_mem rightStart ready.rightBegins))) ?_
  refine Outcome.bind_ok (addSilentEdges_withEdges _
    (fun state final => fromLeft state (wfLeft.finals_mem state final)) second) ?_
  refine Outcome.bind_ok (addSilentEdges_withEdges _
    (fun state final => fromRight state (wfRight.finals_mem state final)) second) ?_
  refine Outcome.bind_ok setStart_created ?_
  exact Outcome.bind_ok (markFinal_created (g := builder.joined left right) rfl) rfl

/-- A graph with a start is put into a loop. -/
theorem repetition_ok {innerStart : State} (wf : inner.WellFormed)
    (begins : inner.start = some innerStart) (allowEmpty : Bool) :
    builder.repetition inner allowEmpty =
      .ok (builder.release (builder.repetitionGraph inner allowEmpty innerStart)) := by
  -- All states that the operations name come from the graph or have just been created.
  have first := (mem_states_created (g := builder.adopted inner)).mpr (Or.inr (Or.inl rfl))
  have second := (mem_states_created (g := builder.adopted inner)).mpr (Or.inl rfl)
  have old : ∀ state ∈ inner.states,
      state ∈ (builder.adopted inner).createState.2.createState.2.states :=
    fun state member => mem_states_created.mpr (Or.inr (Or.inr member))
  have innerStart_mem := old innerStart (wf.start_mem innerStart begins)
  have finals_mem := fun state final => old state (wf.finals_mem state final)
  refine Outcome.bind_ok (startState_eq_ok.mpr begins) ?_
  refine Outcome.bind_ok (merge_blank_eq builder inner) ?_
  refine Outcome.bind_ok (addEdge_withEdges [] first innerStart_mem) ?_
  -- The edge past the inner graph is there or not.
  refine Outcome.bind_ok (addEdge_if_withEdges _ ⟨_, .epsilon, _⟩ first second) ?_
  refine Outcome.bind_ok (addSilentEdges_withEdges _ finals_mem innerStart_mem) ?_
  refine Outcome.bind_ok (addSilentEdges_withEdges _ finals_mem second) ?_
  refine Outcome.bind_ok setStart_created ?_
  exact Outcome.bind_ok (markFinal_created (g := builder.adopted inner) rfl) rfl

/-- What combinable graphs allow, and only these, succeeds with the result that belongs to them. -/
private theorem eq_ok_iff_combinable {outcome : Except Error (Graph × Builder)}
    {result : State → State → Graph × Builder} {out : Graph × Builder}
    (succeeds : ∀ leftStart rightStart, Combinable left right leftStart rightStart →
      outcome = .ok (result leftStart rightStart))
    (ready_of_ok : outcome = .ok out →
      ∃ leftStart rightStart, Combinable left right leftStart rightStart) :
    outcome = .ok out ↔ ∃ leftStart rightStart,
      Combinable left right leftStart rightStart ∧ out = result leftStart rightStart := by
  constructor
  · intro built
    obtain ⟨leftStart, rightStart, ready⟩ := ready_of_ok built
    -- Two successes of one outcome are the same.
    rw [succeeds leftStart rightStart ready] at built
    cases built
    exact ⟨leftStart, rightStart, ready, rfl⟩
  · intro given
    obtain ⟨leftStart, rightStart, ready, same⟩ := given
    rw [succeeds leftStart rightStart ready, same]

/-- Graphs are put after each other exactly if they can be combined. -/
theorem concat_eq_ok_iff {out : Graph × Builder} (wfLeft : left.WellFormed)
    (wfRight : right.WellFormed) :
    builder.concat left right = .ok out ↔
      ∃ leftStart rightStart, Combinable left right leftStart rightStart ∧
        out = builder.release (builder.concatGraph left right rightStart) :=
  eq_ok_iff_combinable (fun _ _ ready => concat_ok wfLeft wfRight ready) combinable_of_ok

/-- Graphs are put beside each other exactly if they can be combined. -/
theorem union_eq_ok_iff {out : Graph × Builder} (wfLeft : left.WellFormed)
    (wfRight : right.WellFormed) :
    builder.union left right = .ok out ↔
      ∃ leftStart rightStart, Combinable left right leftStart rightStart ∧
        out = builder.release (builder.unionGraph left right leftStart rightStart) :=
  eq_ok_iff_combinable (fun _ _ ready => union_ok wfLeft wfRight ready) combinable_of_ok

/-- A graph is put into a loop exactly if it has a start. -/
theorem repetition_eq_ok_iff {out : Graph × Builder} {allowEmpty : Bool} (wf : inner.WellFormed) :
    builder.repetition inner allowEmpty = .ok out ↔
      ∃ innerStart, inner.start = some innerStart ∧
        out = builder.release (builder.repetitionGraph inner allowEmpty innerStart) := by
  constructor
  · intro built
    -- The loop asks for the start first, and cannot fail once it has it.
    obtain ⟨innerStart, begins, _⟩ := Outcome.bind_eq_ok.mp built
    rw [startState_eq_ok] at begins
    rw [repetition_ok wf begins allowEmpty] at built
    cases built
    exact ⟨innerStart, begins, rfl⟩
  · intro given
    obtain ⟨innerStart, begins, same⟩ := given
    rw [repetition_ok wf begins allowEmpty, same]

/-- The graph of a character is well formed. -/
theorem wellFormed_literalGraph (builder : Builder) (c : Char) :
    (builder.literalGraph c).WellFormed :=
  kept_wellFormed.literal (literal_eq builder c)

/-- Putting graphs after each other disturbs nothing. -/
theorem wellFormed_concatGraph (wfLeft : left.WellFormed) (wfRight : right.WellFormed)
    (ready : Combinable left right leftStart rightStart) :
    (builder.concatGraph left right rightStart).WellFormed :=
  kept_wellFormed.concat wfLeft wfRight (concat_ok wfLeft wfRight ready)

/-- Putting graphs beside each other disturbs nothing. -/
theorem wellFormed_unionGraph (wfLeft : left.WellFormed) (wfRight : right.WellFormed)
    (ready : Combinable left right leftStart rightStart) :
    (builder.unionGraph left right leftStart rightStart).WellFormed :=
  kept_wellFormed.union wfLeft wfRight (union_ok wfLeft wfRight ready)

/-- Putting a graph into a loop disturbs nothing. -/
theorem wellFormed_repetitionGraph {innerStart : State} {allowEmpty : Bool} (wf : inner.WellFormed)
    (begins : inner.start = some innerStart) :
    (builder.repetitionGraph inner allowEmpty innerStart).WellFormed :=
  kept_wellFormed.repetition wf (repetition_ok wf begins allowEmpty)

end Builder

end PatternAutomata
