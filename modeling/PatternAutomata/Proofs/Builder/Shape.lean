import PatternAutomata.Proofs.Builder.Language
import PatternAutomata.Proofs.SortedSet

/-! The shape of what a builder builds: one way in, one way out, and few edges from each state. -/

namespace PatternAutomata

namespace Graph

/-- A state is left by one edge that reads, or by no more than two edges that are all silent. -/
def Narrow (g : Graph) (p : State) : Prop :=
  -- A final state is left by no edge at all, which is the second case.
  (∃ edge c, g.outgoing p = [edge] ∧ edge.symbol = .char c) ∨
    (g.outgoing p).length ≤ 2 ∧ ∀ edge ∈ g.outgoing p, edge.symbol = .epsilon

/-- A graph leads from one state, which is not entered, to another, which is not left. -/
structure Shaped (g : Graph) (first last : State) : Prop where
  /-- The first state is the start. -/
  begins : g.start = some first
  /-- The last state is the only one that is final. -/
  ends : g.finals = {last}
  /-- The two states are different. -/
  distinct : first ≠ last
  /-- No edge enters the first state. -/
  not_entered : ∀ edge ∈ g.edges, edge.target ≠ first
  /-- No edge leaves the last state. -/
  not_left : ∀ edge ∈ g.edges, edge.source ≠ last
  /-- Every state is left by one edge that reads or at most two silent ones. -/
  narrow : ∀ p ∈ g.states, g.Narrow p

variable {g h part : Graph} {p first last : State}

/-- The first state is one of the graph. -/
theorem Shaped.first_mem (shaped : g.Shaped first last) (wf : g.WellFormed) : first ∈ g.states :=
  wf.start_mem first shaped.begins

/-- The last state is one of the graph. -/
theorem Shaped.last_mem (shaped : g.Shaped first last) (wf : g.WellFormed) : last ∈ g.states :=
  wf.finals_mem last (by simp [shaped.ends])

/-- Graphs with the same edges from a state list them in the same order. -/
theorem outgoing_congr (same : ∀ edge, edge.source = p → (edge ∈ g.edges ↔ edge ∈ h.edges)) :
    g.outgoing p = h.outgoing p := by
  -- The edges of one source are all that is listed.
  have selected : g.edges.filter (·.source = p) = h.edges.filter (·.source = p) := by
    ext edge
    simpa [and_congr_left_iff] using same edge
  exact congrArg SortedSet.toList selected

/-- A state is narrow if all edges that leave it are among at most two silent ones. -/
theorem narrow_of_silent (edges : List Edge) (few : edges.length ≤ 2)
    (silent : ∀ edge ∈ edges, edge.symbol = .epsilon)
    (only : ∀ edge ∈ g.edges, edge.source = p → edge ∈ edges) : g.Narrow p := by
  have among : ∀ edge ∈ g.outgoing p, edge ∈ edges := by
    intro edge leaving
    obtain ⟨member, source⟩ := mem_outgoing.mp leaving
    exact only edge member source
  -- No edge is listed twice, so there are no more edges than places among the given ones.
  have distinct : (g.outgoing p).Nodup := g.edges.nodup_toList.filter _
  have bounded : (g.outgoing p).length ≤ edges.length := (distinct.subperm among).length_le
  exact Or.inr ⟨Nat.le_trans bounded few, fun edge leaving => silent edge (among edge leaving)⟩

/-- The states of a shaped part stay narrow if the part is left for at most two others. -/
theorem Encloses.narrow {Exit : State → Prop} (encloses : g.Encloses part Exit)
    (shaped : part.Shaped first last) (exits : List State) (few : exits.length ≤ 2)
    (listed : ∀ exit, Exit exit → exit ∈ exits) (inside : p ∈ part.states) : g.Narrow p := by
  by_cases final : p = last
  · refine narrow_of_silent (exits.map (⟨last, .epsilon, ·⟩)) (by simpa using few) (by simp) ?_
    intro edge member source
    -- No edge of the part leaves its last state, so the edge leads to an exit.
    rcases encloses.leave edge member (source ▸ inside) with own | ⟨_, silent, exit⟩
    · exact absurd (source.trans final) (shaped.not_left edge own)
    · refine List.mem_map.mpr ⟨edge.target, listed _ exit, ?_⟩
      rw [← final, ← source, ← silent]
  · -- The part is left only from its last state, so nothing is added to what leaves any other.
    have same : g.outgoing p = part.outgoing p := by
      refine outgoing_congr fun edge source => ⟨fun member => ?_, encloses.more edge⟩
      rcases encloses.leave edge member (source ▸ inside) with own | ⟨ends, _⟩
      · exact own
      · rw [shaped.ends, SortedSet.mem_singleton, source] at ends
        exact absurd ends final
    have narrow := shaped.narrow p inside
    rwa [Narrow, ← same] at narrow

/-- Different edges that are new add their number to that of the others. -/
theorem size_edges_withEdges {edges : List Edge} (distinct : edges.Nodup)
    (fresh : ∀ edge ∈ edges, edge ∉ g.edges) :
    (g.withEdges edges).edges.size = g.edges.size + edges.length :=
  SortedSet.size_eq_add distinct fresh fun _ => mem_edges_withEdges

/-- A frame adds the number of its edges, if these are different and new. -/
theorem size_edges_framed {edges : List Edge} (distinct : edges.Nodup)
    (fresh : ∀ edge ∈ edges, edge ∉ g.edges) :
    (g.framed edges).edges.size = g.edges.size + edges.length :=
  SortedSet.size_eq_add distinct fresh fun _ => mem_edges_framed

end Graph

namespace Builder

open PatternAutomata.Graph

variable {builder : Builder} {left right inner : Graph}
  {leftStart leftEnd rightStart rightEnd innerStart innerEnd : State}

section Literal

variable (builder : Builder) (c : Char)

/-- The graph for one character leads along one edge. -/
theorem shaped_literalGraph : (builder.literalGraph c).Shaped builder.next (builder.next + 1) := by
  have differ : builder.next ≠ builder.next + 1 := Nat.ne_of_lt (Nat.lt_succ_self _)
  refine ⟨rfl, rfl, differ, fun edge member => ?_, fun edge member => ?_, fun p member => ?_⟩
  · rw [mem_edges_literalGraph.mp member]
    exact differ.symm
  · rw [mem_edges_literalGraph.mp member]
    exact differ
  · rcases mem_states_framed.mp member with last | first | old
    · -- The only edge leaves the other state.
      refine narrow_of_silent [] (Nat.zero_le _) (by simp) fun edge member source => ?_
      rw [mem_edges_literalGraph.mp member, last] at source
      exact absurd source differ
    · have only : (builder.literalGraph c).edges.toList =
          [⟨builder.next, .char c, builder.next + 1⟩] := rfl
      refine Or.inl ⟨⟨builder.next, .char c, builder.next + 1⟩, c, ?_, rfl⟩
      rw [first, outgoing, only]
      simp [blank]
    · exact absurd old (SortedSet.not_mem_empty p)

/-- The graph for one character has one edge. -/
theorem size_edges_literalGraph : (builder.literalGraph c).edges.size = 1 := rfl

end Literal

section Pair

variable (wfLeft : left.WellFormed) (wfRight : right.WellFormed)
  (ready : Combinable left right leftStart rightStart)
  (shapedLeft : left.Shaped leftStart leftEnd) (shapedRight : right.Shaped rightStart rightEnd)

include wfLeft wfRight ready

/-- Each of two graphs that are taken over contributes its edges. -/
theorem size_edges_joined (builder : Builder) :
    (builder.joined left right).edges.size = left.edges.size + right.edges.size := by
  refine SortedSet.size_eq_add right.edges.nodup_toList (fun edge other own => ?_)
    fun _ => mem_edges_joined
  -- An edge of both sides would have a source that they share.
  exact ready.disjoint _ (wfLeft.source_mem edge own) (wfRight.source_mem edge other)

include shapedLeft shapedRight

/-- The states in which two graphs end are not left when both are taken over. -/
theorem not_left_joined {edge : Edge} (member : edge ∈ (builder.joined left right).edges) :
    edge.source ≠ leftEnd ∧ edge.source ≠ rightEnd := by
  -- An edge of one side does not leave its own end, nor that of the other side.
  rcases mem_edges_joined.mp member with own | own
  · refine ⟨shapedLeft.not_left edge own, fun same => ?_⟩
    exact ready.disjoint _ (wfLeft.source_mem edge own) (same ▸ shapedRight.last_mem wfRight)
  · refine ⟨fun same => ?_, shapedRight.not_left edge own⟩
    exact ready.disjoint _ (shapedLeft.last_mem wfLeft) (same ▸ wfRight.source_mem edge own)

/-- Graphs that are put after each other lead from the start of the left to the end of the right. -/
theorem shaped_concatGraph :
    (builder.concatGraph left right rightStart).Shaped leftStart rightEnd := by
  have startLeft := shapedLeft.first_mem wfLeft
  have startRight := shapedRight.first_mem wfRight
  have endLeft := shapedLeft.last_mem wfLeft
  have endRight := shapedRight.last_mem wfRight
  have apart : ∀ p ∈ left.states, ∀ q ∈ right.states, p ≠ q :=
    fun p inside q other same => ready.disjoint p inside (same ▸ other)
  refine ⟨shapedLeft.begins, shapedRight.ends, apart _ startLeft _ endRight, ?_, ?_, ?_⟩
  · intro edge member
    rcases mem_edges_concatGraph.mp member with (own | other) | ⟨_, _, across⟩
    · exact shapedLeft.not_entered edge own
    · exact (apart _ startLeft _ (wfRight.target_mem edge other)).symm
    · exact across ▸ (apart _ startLeft _ startRight).symm
  · intro edge member
    rcases mem_edges_concatGraph.mp member with (other | own) | ⟨across, _, _⟩
    · exact apart _ (wfLeft.source_mem edge other) _ endRight
    · exact shapedRight.not_left edge own
    · exact apart _ (wfLeft.finals_mem _ across) _ endRight
  · -- The left part is left for the start of the right one, and the right part not at all.
    intro p member
    rcases mem_states_concatGraph.mp member with inside | inside
    · exact (encloses_left_concatGraph wfRight ready).narrow shapedLeft [rightStart] (by simp)
        (by simp) inside
    · exact (encloses_right_concatGraph wfLeft ready).narrow shapedRight [] (by simp)
        (by simp) inside

/-- Graphs that are put after each other are linked by one more edge. -/
theorem size_edges_concatGraph (builder : Builder) :
    (builder.concatGraph left right rightStart).edges.size =
      left.edges.size + right.edges.size + 1 := by
  -- There is one final state on the left, and so one silent edge.
  have link : silentEdges left.finals rightStart = [⟨leftEnd, .epsilon, rightStart⟩] := by
    rw [shapedLeft.ends]
    rfl
  show ((builder.joined left right).withEdges (silentEdges left.finals rightStart)).edges.size = _
  rw [link, size_edges_withEdges (by simp), size_edges_joined wfLeft wfRight ready]
  · rfl
  · intro edge new old
    have source := (not_left_joined wfLeft wfRight ready shapedLeft shapedRight old).1
    cases List.mem_singleton.mp new
    exact source rfl

/-- Graphs that are put beside each other lead from a new start to a new end. -/
theorem shaped_unionGraph :
    (builder.unionGraph left right leftStart rightStart).Shaped (builder.joined left right).next
      ((builder.joined left right).next + 1) := by
  have startLeft := shapedLeft.first_mem wfLeft
  have startRight := shapedRight.first_mem wfRight
  have old : ∀ p, p ∈ left.states ∨ p ∈ right.states → p ≠ (builder.joined left right).next :=
    fun p inside => Nat.ne_of_lt (lt_next_joined wfLeft wfRight ready builder inside)
  refine ⟨rfl, rfl, Nat.ne_of_lt (Nat.lt_succ_self _), ?_, ?_, ?_⟩
  · intro edge member
    rcases mem_edges_unionGraph.mp member with (own | own) | ((rfl | rfl) | ⟨_, _, end_⟩) |
      ⟨_, _, end_⟩
    · exact old _ (Or.inl (wfLeft.target_mem edge own))
    · exact old _ (Or.inr (wfRight.target_mem edge own))
    · exact old _ (Or.inl startLeft)
    · exact old _ (Or.inr startRight)
    · exact end_ ▸ Nat.succ_ne_self _
    · exact end_ ▸ Nat.succ_ne_self _
  · exact fun edge member => source_ne_of_mem_edges_unionGraph wfLeft wfRight ready member
  · -- The new start branches, the new end is not left, and both parts are left for the new end.
    intro p member
    rw [unionGraph, mem_states_framed, mem_states_joined] at member
    rcases member with last | first | inside | inside
    · refine narrow_of_silent [] (by simp) (by simp) fun edge member source => ?_
      exact absurd (source.trans last)
        (source_ne_of_mem_edges_unionGraph wfLeft wfRight ready member)
    · refine narrow_of_silent [⟨p, .epsilon, leftStart⟩, ⟨p, .epsilon, rightStart⟩] (by simp)
        (by simp) fun edge member source => ?_
      rw [List.mem_cons, List.mem_singleton, first]
      exact branching_of_mem_edges_unionGraph wfLeft wfRight ready member
        (Nat.le_of_eq (source.trans first).symm)
    · exact (encloses_left_unionGraph wfLeft wfRight ready).narrow shapedLeft
        [(builder.joined left right).next + 1] (by simp) (by simp) inside
    · exact (encloses_right_unionGraph wfLeft wfRight ready).narrow shapedRight
        [(builder.joined left right).next + 1] (by simp) (by simp) inside

/-- Graphs that are put beside each other get four more edges. -/
theorem size_edges_unionGraph (builder : Builder) :
    (builder.unionGraph left right leftStart rightStart).edges.size =
      left.edges.size + right.edges.size + 4 := by
  obtain ⟨n, numbered⟩ : ∃ n, n = (builder.joined left right).next := ⟨_, rfl⟩
  have below : ∀ p, p ∈ left.states ∨ p ∈ right.states → p < n :=
    fun p inside => numbered ▸ lt_next_joined wfLeft wfRight ready builder inside
  have startLeft := shapedLeft.first_mem wfLeft
  have startRight := shapedRight.first_mem wfRight
  have endLeft := shapedLeft.last_mem wfLeft
  have endRight := shapedRight.last_mem wfRight
  -- The four edges are different, since the parts share no state and the new states are new.
  have starts : leftStart ≠ rightStart := fun same => ready.disjoint _ startLeft (same ▸ startRight)
  have ends : leftEnd ≠ rightEnd := fun same => ready.disjoint _ endLeft (same ▸ endRight)
  have newLeft : leftEnd ≠ n := Nat.ne_of_lt (below _ (Or.inl endLeft))
  have newRight : rightEnd ≠ n := Nat.ne_of_lt (below _ (Or.inr endRight))
  -- None of them is an edge of the parts, which do not know the new states or leave their ends.
  have fresh : ∀ edge : Edge, edge.source = n ∨ edge.source = leftEnd ∨ edge.source = rightEnd →
      edge ∉ (builder.joined left right).edges := by
    intro edge source old
    obtain ⟨fromLeft, fromRight⟩ := not_left_joined wfLeft wfRight ready shapedLeft shapedRight old
    have known := (wellFormed_joined wfLeft wfRight ready).source_mem edge old
    rcases source with new | here | here
    · exact Nat.ne_of_lt (below _ (mem_states_joined.mp known)) new
    · exact fromLeft here
    · exact fromRight here
  rw [unionGraph, shapedLeft.ends, shapedRight.ends, ← numbered, size_edges_framed]
  · rw [size_edges_joined wfLeft wfRight ready]
    rfl
  · simp [silentEdges, starts, ends, newLeft.symm, newRight.symm]
  · simp [silentEdges, fresh, -mem_edges_joined]

end Pair

section Loop

variable {allowEmpty : Bool} (wf : inner.WellFormed) (shaped : inner.Shaped innerStart innerEnd)

include wf shaped

/-- A graph in a loop leads from a new start to a new end. -/
theorem shaped_repetitionGraph : (builder.repetitionGraph inner allowEmpty innerStart).Shaped
    (builder.adopted inner).next ((builder.adopted inner).next + 1) := by
  have innerKnown := shaped.first_mem wf
  have old : ∀ p ∈ inner.states, p ≠ (builder.adopted inner).next :=
    fun p inside => Nat.ne_of_lt (lt_next_adopted wf builder inside)
  refine ⟨rfl, rfl, Nat.ne_of_lt (Nat.lt_succ_self _), ?_, ?_, ?_⟩
  · intro edge member
    rcases mem_edges_repetitionGraph.mp member with own | ((rfl | ⟨_, rfl⟩) | ⟨_, _, again⟩) |
      ⟨_, _, leaves⟩
    · exact old _ (wf.target_mem edge own)
    · exact old _ innerKnown
    · exact Nat.succ_ne_self _
    · exact again ▸ old _ innerKnown
    · exact leaves ▸ Nat.succ_ne_self _
  · exact fun edge member => source_ne_of_mem_edges_repetitionGraph wf member
  · -- The part is left for the new end and for its own start, where it begins again.
    intro p member
    rw [repetitionGraph, mem_states_framed, mem_states_adopted] at member
    rcases member with last | first | inside
    · refine narrow_of_silent [] (by simp) (by simp) fun edge member source => ?_
      exact absurd (source.trans last) (source_ne_of_mem_edges_repetitionGraph wf member)
    · refine narrow_of_silent [⟨p, .epsilon, innerStart⟩, ⟨p, .epsilon, p + 1⟩] (by simp)
        (by simp) fun edge member source => ?_
      rw [List.mem_cons, List.mem_singleton, first]
      exact (entering_of_mem_edges_repetitionGraph wf member
        (Nat.le_of_eq (source.trans first).symm)).imp_right And.right
    · exact (encloses_repetitionGraph wf).narrow shaped
        [innerStart, (builder.adopted inner).next + 1] (by simp) (by simp) inside

/-- A graph in a loop gets three more edges, and one more if nothing needs to be read. -/
theorem size_edges_repetitionGraph (builder : Builder) (allowEmpty : Bool) :
    (builder.repetitionGraph inner allowEmpty innerStart).edges.size =
      inner.edges.size + 3 + allowEmpty.toNat := by
  obtain ⟨n, numbered⟩ : ∃ n, n = (builder.adopted inner).next := ⟨_, rfl⟩
  have below : ∀ p ∈ inner.states, p < n :=
    fun p inside => numbered ▸ lt_next_adopted wf builder inside
  have startApart : innerStart ≠ n + 1 :=
    Nat.ne_of_lt (Nat.lt_succ_of_lt (below _ (shaped.first_mem wf)))
  have endApart : n ≠ innerEnd := Nat.ne_of_gt (below _ (shaped.last_mem wf))
  -- All new edges leave the new start or the old end, which no old edge does.
  have fresh : ∀ edge : Edge, edge.source = n ∨ edge.source = innerEnd → edge ∉ inner.edges := by
    intro edge source old
    rcases source with new | here
    · exact Nat.ne_of_lt (below _ (wf.source_mem edge old)) new
    · exact shaped.not_left edge old here
  rw [repetitionGraph, shaped.ends, ← numbered, size_edges_framed]
  · cases allowEmpty <;> rfl
  · cases allowEmpty <;> simp [silentEdges, startApart, endApart]
  · cases allowEmpty <;> simp [silentEdges, adopted, fresh]

end Loop

end Builder

end PatternAutomata
