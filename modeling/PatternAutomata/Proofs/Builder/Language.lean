import PatternAutomata.Graph.Path
import PatternAutomata.Proofs.Builder
import PatternAutomata.Proofs.Graph.Enclosed

/-! The inputs that combined automata spell, found by cutting paths where they leave a part. -/

namespace PatternAutomata

/-- An input is repeated when it is put together from inputs of a language. -/
def Repeated (language : List Char → Prop) (input : List Char) : Prop :=
  -- Without any parts this is the empty input.
  ∃ parts : List (List Char), (∀ part ∈ parts, language part) ∧ parts.flatten = input

namespace Repeated

variable {language : List Char → Prop} {first rest input : List Char}

/-- Nothing is put together from no inputs. -/
theorem nil : Repeated language [] :=
  ⟨[], fun _ listed => absurd listed List.not_mem_nil, rfl⟩

/-- One more input may be put in front. -/
theorem cons (head : language first) (tail : Repeated language rest) :
    Repeated language (first ++ rest) := by
  obtain ⟨parts, each, flat⟩ := tail
  refine ⟨first :: parts, fun part listed => ?_, by rw [List.flatten_cons, flat]⟩
  -- The new part is put in front of the others, each of which is kept.
  rcases List.mem_cons.mp listed with same | listed
  · exact same ▸ head
  · exact each part listed

/-- What is repeated is nothing, or an input of the language and then what is repeated. -/
theorem nil_or_cons (repeated : Repeated language input) :
    input = [] ∨ ∃ first rest, first ++ rest = input ∧ language first ∧ Repeated language rest := by
  obtain ⟨parts, each, flat⟩ := repeated
  -- The first part is split off, if there is one.
  cases parts with
  | nil => exact Or.inl flat.symm
  | cons part parts =>
    have tail := fun later listed => each later (List.mem_cons_of_mem _ listed)
    exact Or.inr ⟨part, parts.flatten, flat, each part List.mem_cons_self, parts, tail, rfl⟩

/-- What holds of nothing and with each input put in front holds of all that is repeated. -/
@[elab_as_elim]
theorem induct {motive : List Char → Prop} (repeated : Repeated language input) (nil : motive [])
    (cons : ∀ first rest, language first → motive rest → motive (first ++ rest)) :
    motive input := by
  obtain ⟨parts, each, flat⟩ := repeated
  rw [← flat]
  clear flat
  -- The induction is on the inputs that are put together.
  induction parts with
  | nil => exact nil
  | cons part parts ih =>
    exact cons part parts.flatten (each part List.mem_cons_self)
      (ih fun later listed => each later (List.mem_cons_of_mem _ listed))

end Repeated

namespace Graph

/-- A graph spells from its start, once that is known. -/
theorem spells_iff {g : Graph} {start : State} {input : List Char} (begins : g.start = some start) :
    g.Spells input ↔ ∃ final ∈ g.finals, g.Path start input final := by
  -- The start is known, so it need not be looked for.
  unfold Spells
  rw [begins]
  simp

end Graph

namespace Builder

open PatternAutomata.Graph

variable {builder : Builder} {left right inner : Graph} {leftStart rightStart : State}
  {input : List Char}

/-- The graph of a character has a single edge. -/
theorem mem_edges_literalGraph {c : Char} {edge : Edge} :
    edge ∈ (builder.literalGraph c).edges ↔ edge = ⟨builder.next, .char c, builder.next + 1⟩ := by
  rw [literalGraph, mem_edges_framed, List.mem_singleton]
  -- The graph had no edges before.
  exact or_iff_right (SortedSet.not_mem_empty edge)

/-- The graph of a character spells this character and nothing else. -/
theorem spells_literalGraph {c : Char} : (builder.literalGraph c).Spells input ↔ input = [c] := by
  have only : ⟨builder.next, .char c, builder.next + 1⟩ ∈ (builder.literalGraph c).edges :=
    mem_edges_literalGraph.mpr rfl
  have begins : (builder.literalGraph c).start = some builder.next := rfl
  rw [spells_iff begins]
  constructor
  · intro spelled
    obtain ⟨final, ends, path⟩ := spelled
    have last : final = builder.next + 1 := SortedSet.mem_singleton.mp ends
    -- The first step is the only edge, and there is no second one.
    cases path with
    | here => exact absurd last (Nat.ne_of_lt (Nat.lt_succ_self _))
    | silent edge _ => cases mem_edges_literalGraph.mp edge
    | read edge rest =>
      cases mem_edges_literalGraph.mp edge
      have stuck := rest.eq_of_no_edge fun edge member => by
        rw [mem_edges_literalGraph.mp member]
        exact Nat.ne_of_lt (Nat.lt_succ_self _)
      rw [stuck.1]
  · intro whole
    rw [whole]
    exact ⟨builder.next + 1, SortedSet.mem_singleton.mpr rfl, Path.read only (Path.here _)⟩

section Concat

variable (wfLeft : left.WellFormed) (wfRight : right.WellFormed)
  (ready : Combinable left right leftStart rightStart)

/-- The edges are those of both graphs and those that lead across. -/
theorem mem_edges_concatGraph {edge : Edge} :
    edge ∈ (builder.concatGraph left right rightStart).edges ↔
      (edge ∈ left.edges ∨ edge ∈ right.edges) ∨
        edge.source ∈ left.finals ∧ edge.symbol = .epsilon ∧ edge.target = rightStart := by
  show edge ∈ ((builder.joined left right).withEdges _).edges ↔ _
  -- Edges come from both sides, and from the silent ones in between.
  rw [mem_edges_withEdges, mem_edges_joined, mem_silentEdges]

include wfRight ready in
/-- The left graph is left only for the start of the right one. -/
theorem encloses_left_concatGraph :
    (builder.concatGraph left right rightStart).Encloses left (· = rightStart) := by
  refine ⟨fun edge own => by simp [mem_edges_concatGraph, own], fun edge member inside => ?_⟩
  rcases mem_edges_concatGraph.mp member with (own | other) | across
  · exact Or.inl own
  · -- An edge of the right graph would leave a state of both.
    exact absurd (wfRight.source_mem edge other) (ready.disjoint _ inside)
  · exact Or.inr across

include wfLeft ready in
/-- The right graph is never left. -/
theorem encloses_right_concatGraph :
    (builder.concatGraph left right rightStart).Encloses right fun _ => False := by
  refine ⟨fun edge own => by simp [mem_edges_concatGraph, own], fun edge member inside => ?_⟩
  rcases mem_edges_concatGraph.mp member with (other | own) | across
  · exact absurd inside (ready.disjoint _ (wfLeft.source_mem edge other))
  · exact Or.inl own
  · -- The edges across leave the left graph.
    exact absurd inside (ready.disjoint _ (wfLeft.finals_mem _ across.1))

include wfLeft wfRight ready in
/-- Graphs that are put after each other spell an input of the left, then one of the right. -/
theorem spells_concatGraph :
    (builder.concatGraph left right rightStart).Spells input ↔
      ∃ first second, first ++ second = input ∧ left.Spells first ∧ right.Spells second := by
  have leftPart : (builder.concatGraph left right rightStart).Encloses left (· = rightStart) :=
    encloses_left_concatGraph wfRight ready
  have rightPart : (builder.concatGraph left right rightStart).Encloses right fun _ => False :=
    encloses_right_concatGraph wfLeft ready
  have leftKnown := wfLeft.start_mem leftStart ready.leftBegins
  have rightKnown := wfRight.start_mem rightStart ready.rightBegins
  have begins : (builder.concatGraph left right rightStart).start = some leftStart :=
    ready.leftBegins
  rw [spells_iff begins]
  simp only [spells_iff ready.leftBegins, spells_iff ready.rightBegins]
  constructor
  · intro spelled
    obtain ⟨last, ends, path⟩ := spelled
    rcases leftPart.stays_or_leaves wfLeft leftKnown path with stays | leaves
    · -- The path ends in the right graph, so it cannot have stayed in the left one.
      have inside : last ∈ left.states := wfLeft.mem_of_path stays leftKnown
      exact absurd (wfRight.finals_mem last ends) (ready.disjoint last inside)
    · obtain ⟨first, second, final, _, whole, between, before, out, after⟩ := leaves
      subst out
      exact ⟨first, second, whole, ⟨final, between, before⟩,
        ⟨last, ends, rightPart.stays wfRight rightKnown after⟩⟩
  · intro spelled
    obtain ⟨first, second, whole, ⟨final, between, before⟩, ⟨last, ends, after⟩⟩ := spelled
    -- The two paths are linked by the edge that leads across.
    have across : ⟨final, .epsilon, rightStart⟩ ∈
        (builder.concatGraph left right rightStart).edges := by
      simp [mem_edges_concatGraph, between]
    rw [← whole]
    exact ⟨last, ends,
      (before.mono leftPart.more).append (Path.silent across (after.mono rightPart.more))⟩

end Concat

section Union

variable (wfLeft : left.WellFormed) (wfRight : right.WellFormed)
  (ready : Combinable left right leftStart rightStart)

/-- The edges are those of both graphs, two that branch, and those that lead to the new end. -/
theorem mem_edges_unionGraph {edge : Edge} :
    edge ∈ (builder.unionGraph left right leftStart rightStart).edges ↔
      (edge ∈ left.edges ∨ edge ∈ right.edges) ∨
        ((edge = ⟨(builder.joined left right).next, .epsilon, leftStart⟩ ∨
            edge = ⟨(builder.joined left right).next, .epsilon, rightStart⟩) ∨
          edge.source ∈ left.finals ∧ edge.symbol = .epsilon ∧
            edge.target = (builder.joined left right).next + 1) ∨
          edge.source ∈ right.finals ∧ edge.symbol = .epsilon ∧
            edge.target = (builder.joined left right).next + 1 := by
  -- The additional edges are listed behind each other.
  rw [unionGraph, mem_edges_framed, mem_edges_joined]
  simp only [List.mem_append, List.mem_cons, List.not_mem_nil, or_false, mem_silentEdges]

include wfLeft wfRight ready

/-- The new states are larger than those of both graphs. -/
theorem lt_next_joined (builder : Builder) {state : State}
    (inside : state ∈ left.states ∨ state ∈ right.states) :
    state < (builder.joined left right).next :=
  (wellFormed_joined wfLeft wfRight ready).states_lt state (mem_states_joined.mpr inside)

/-- Only the two edges that branch leave a new state. -/
theorem branching_of_mem_edges_unionGraph {edge : Edge}
    (member : edge ∈ (builder.unionGraph left right leftStart rightStart).edges)
    (new : (builder.joined left right).next ≤ edge.source) :
    edge = ⟨(builder.joined left right).next, .epsilon, leftStart⟩ ∨
      edge = ⟨(builder.joined left right).next, .epsilon, rightStart⟩ := by
  -- All other edges leave states of the two graphs.
  have old : ¬(edge.source ∈ left.states ∨ edge.source ∈ right.states) :=
    fun inside => Nat.not_lt.mpr new (lt_next_joined wfLeft wfRight ready builder inside)
  rcases mem_edges_unionGraph.mp member with (own | own) | (branching | ⟨ends, _⟩) | ⟨ends, _⟩
  · exact absurd (Or.inl (wfLeft.source_mem edge own)) old
  · exact absurd (Or.inr (wfRight.source_mem edge own)) old
  · exact branching
  · exact absurd (Or.inl (wfLeft.finals_mem _ ends)) old
  · exact absurd (Or.inr (wfRight.finals_mem _ ends)) old

/-- No edge leaves the new end. -/
theorem source_ne_of_mem_edges_unionGraph {edge : Edge}
    (member : edge ∈ (builder.unionGraph left right leftStart rightStart).edges) :
    edge.source ≠ (builder.joined left right).next + 1 := by
  -- The edges that leave a new state leave the first one.
  intro last
  rcases branching_of_mem_edges_unionGraph wfLeft wfRight ready member
    (last ▸ Nat.le_succ _) with same | same
  · rw [same] at last
    exact Nat.succ_ne_self _ last.symm
  · rw [same] at last
    exact Nat.succ_ne_self _ last.symm

/-- The left graph is left only for the new end. -/
theorem encloses_left_unionGraph :
    (builder.unionGraph left right leftStart rightStart).Encloses left
      (· = (builder.joined left right).next + 1) := by
  refine ⟨fun edge own => by simp [mem_edges_unionGraph, own], fun edge member inside => ?_⟩
  have lower := lt_next_joined wfLeft wfRight ready builder (Or.inl inside)
  rcases mem_edges_unionGraph.mp member with (own | other) | (branching | leaving) | ⟨ends, _⟩
  · exact Or.inl own
  · exact absurd (wfRight.source_mem edge other) (ready.disjoint _ inside)
  · -- The edges that branch leave a new state.
    rcases branching with same | same <;> simp [same] at lower
  · exact Or.inr leaving
  · exact absurd (wfRight.finals_mem _ ends) (ready.disjoint _ inside)

/-- The right graph is left only for the new end. -/
theorem encloses_right_unionGraph :
    (builder.unionGraph left right leftStart rightStart).Encloses right
      (· = (builder.joined left right).next + 1) := by
  refine ⟨fun edge own => by simp [mem_edges_unionGraph, own], fun edge member inside => ?_⟩
  have lower := lt_next_joined wfLeft wfRight ready builder (Or.inr inside)
  rcases mem_edges_unionGraph.mp member with (other | own) | (branching | ⟨ends, _⟩) | leaving
  · exact absurd inside (ready.disjoint _ (wfLeft.source_mem edge other))
  · exact Or.inl own
  · -- The edges that branch leave a new state.
    rcases branching with same | same <;> simp [same] at lower
  · exact absurd inside (ready.disjoint _ (wfLeft.finals_mem _ ends))
  · exact Or.inr leaving

/-- Graphs that are put beside each other spell the inputs of either. -/
theorem spells_unionGraph :
    (builder.unionGraph left right leftStart rightStart).Spells input ↔
      left.Spells input ∨ right.Spells input := by
  obtain ⟨m, fresh⟩ : ∃ m, m = (builder.joined left right).next := ⟨_, rfl⟩
  have begins : (builder.unionGraph left right leftStart rightStart).start = some m := fresh ▸ rfl
  have ends : (builder.unionGraph left right leftStart rightStart).finals = {m + 1} := fresh ▸ rfl
  -- Each graph is run through up to the new end.
  have stuck : ∀ edge ∈ (builder.unionGraph left right leftStart rightStart).edges,
      edge.source ≠ m + 1 := fun edge member =>
    fresh ▸ source_ne_of_mem_edges_unionGraph wfLeft wfRight ready member
  have outside : ¬(m + 1 ∈ left.states ∨ m + 1 ∈ right.states) := by
    intro inside
    have lower := lt_next_joined wfLeft wfRight ready builder inside
    rw [← fresh] at lower
    exact absurd lower (Nat.not_lt.mpr (Nat.le_succ m))
  have throughLeft : (builder.unionGraph left right leftStart rightStart).Path leftStart input
      (m + 1) ↔ left.Spells input := by
    rw [spells_iff ready.leftBegins]
    have part : (builder.unionGraph left right leftStart rightStart).Encloses left
        (· = m + 1) := by
      rw [fresh]
      exact encloses_left_unionGraph wfLeft wfRight ready
    refine part.path_iff_of_sink wfLeft (wfLeft.start_mem leftStart ready.leftBegins)
      (fun inside => outside (Or.inl inside)) stuck ?_
    intro final ends
    simp [mem_edges_unionGraph, ends, fresh]
  have throughRight : (builder.unionGraph left right leftStart rightStart).Path rightStart input
      (m + 1) ↔ right.Spells input := by
    rw [spells_iff ready.rightBegins]
    have part : (builder.unionGraph left right leftStart rightStart).Encloses right
        (· = m + 1) := by
      rw [fresh]
      exact encloses_right_unionGraph wfLeft wfRight ready
    refine part.path_iff_of_sink wfRight (wfRight.start_mem rightStart ready.rightBegins)
      (fun inside => outside (Or.inr inside)) stuck ?_
    intro final ends
    simp [mem_edges_unionGraph, ends, fresh]
  rw [← throughLeft, ← throughRight, spells_iff begins, ends]
  simp only [SortedSet.mem_singleton, exists_eq_left]
  -- From the start nothing can be done but to branch into one of the graphs.
  constructor
  · intro path
    cases path with
    | silent edge rest =>
      rcases branching_of_mem_edges_unionGraph wfLeft wfRight ready edge (Nat.le_of_eq fresh.symm)
        with same | same
      · cases same
        exact Or.inl rest
      · cases same
        exact Or.inr rest
    | read edge rest =>
      rcases branching_of_mem_edges_unionGraph wfLeft wfRight ready edge (Nat.le_of_eq fresh.symm)
        with same | same
      · cases same
      · cases same
  · intro paths
    subst fresh
    rcases paths with path | path
    · exact Path.silent (by simp [mem_edges_unionGraph]) path
    · exact Path.silent (by simp [mem_edges_unionGraph]) path

end Union

section Repetition

variable {allowEmpty : Bool} {innerStart : State}

/-- The edges are those of the graph, those from the new start, and those from its final states. -/
theorem mem_edges_repetitionGraph {edge : Edge} :
    edge ∈ (builder.repetitionGraph inner allowEmpty innerStart).edges ↔
      edge ∈ inner.edges ∨
        ((edge = ⟨(builder.adopted inner).next, .epsilon, innerStart⟩ ∨
            allowEmpty = true ∧ edge = ⟨(builder.adopted inner).next, .epsilon,
              (builder.adopted inner).next + 1⟩) ∨
          edge.source ∈ inner.finals ∧ edge.symbol = .epsilon ∧ edge.target = innerStart) ∨
          edge.source ∈ inner.finals ∧ edge.symbol = .epsilon ∧
            edge.target = (builder.adopted inner).next + 1 := by
  -- The edge past the graph is among the additional ones only if nothing may be read.
  rw [repetitionGraph, mem_edges_framed, mem_edges_adopted]
  cases allowEmpty <;>
    simp only [List.mem_append, List.mem_cons, List.not_mem_nil, or_false, mem_silentEdges,
      if_true, Bool.false_eq_true, if_false, false_and, true_and]

variable (wf : inner.WellFormed) (begins : inner.start = some innerStart)

include wf

/-- The new states are larger than those of the graph. -/
theorem lt_next_adopted (builder : Builder) {state : State} (inside : state ∈ inner.states) :
    state < (builder.adopted inner).next :=
  (wellFormed_adopted wf).states_lt state inside

/-- Only edges into the graph or past it leave a new state. -/
theorem entering_of_mem_edges_repetitionGraph {edge : Edge}
    (member : edge ∈ (builder.repetitionGraph inner allowEmpty innerStart).edges)
    (new : (builder.adopted inner).next ≤ edge.source) :
    edge = ⟨(builder.adopted inner).next, .epsilon, innerStart⟩ ∨
      allowEmpty = true ∧ edge = ⟨(builder.adopted inner).next, .epsilon,
        (builder.adopted inner).next + 1⟩ := by
  -- All other edges leave states of the graph.
  have old : edge.source ∉ inner.states :=
    fun inside => Nat.not_lt.mpr new (lt_next_adopted wf builder inside)
  rcases mem_edges_repetitionGraph.mp member with own | (entering | ⟨ends, _⟩) | ⟨ends, _⟩
  · exact absurd (wf.source_mem edge own) old
  · exact entering
  · exact absurd (wf.finals_mem _ ends) old
  · exact absurd (wf.finals_mem _ ends) old

/-- No edge leaves the new end. -/
theorem source_ne_of_mem_edges_repetitionGraph {edge : Edge}
    (member : edge ∈ (builder.repetitionGraph inner allowEmpty innerStart).edges) :
    edge.source ≠ (builder.adopted inner).next + 1 := by
  -- The edges that leave a new state leave the first one.
  intro last
  rcases entering_of_mem_edges_repetitionGraph wf member (last ▸ Nat.le_succ _) with same | same
  · rw [same] at last
    exact Nat.succ_ne_self _ last.symm
  · rw [same.2] at last
    exact Nat.succ_ne_self _ last.symm

/-- The graph is left only for its own start or the new end. -/
theorem encloses_repetitionGraph :
    (builder.repetitionGraph inner allowEmpty innerStart).Encloses inner
      fun exit => exit = innerStart ∨ exit = (builder.adopted inner).next + 1 := by
  refine ⟨fun edge own => by simp [mem_edges_repetitionGraph, own], fun edge member inside => ?_⟩
  have lower := lt_next_adopted wf builder inside
  rcases mem_edges_repetitionGraph.mp member with own | (entering | again) | leaving
  · exact Or.inl own
  · -- The edges that enter or pass leave a new state.
    rcases entering with same | ⟨_, same⟩ <;> simp [same] at lower
  · exact Or.inr ⟨again.1, again.2.1, Or.inl again.2.2⟩
  · exact Or.inr ⟨leaving.1, leaving.2.1, Or.inr leaving.2.2⟩

include begins

/-- A path to the new end runs through the graph once, and then again any number of times. -/
theorem repeated_of_path {p last : State}
    (path : (builder.repetitionGraph inner allowEmpty innerStart).Path p input last)
    (inside : p ∈ inner.states) (ends : last = (builder.adopted inner).next + 1) :
    ∃ first rest, first ++ rest = input ∧ (∃ final ∈ inner.finals, inner.Path p first final) ∧
      Repeated inner.Spells rest := by
  -- The induction is on the path, whose edges stay in the graph or are those from its final states.
  have known := wf.start_mem innerStart begins
  induction path with
  | here p =>
    -- The end is not a state of the graph.
    have lower := lt_next_adopted wf builder inside
    rw [ends] at lower
    exact absurd lower (Nat.not_lt.mpr (Nat.le_succ _))
  | silent edge rest ih =>
    rcases (encloses_repetitionGraph wf).leave _ edge inside with own | ⟨final, _, exit⟩
    · obtain ⟨first, later, whole, ⟨final, final_mem, through⟩, again⟩ :=
        ih (wf.target_mem _ own) ends
      exact ⟨first, later, whole, ⟨final, final_mem, Path.silent own through⟩, again⟩
    · refine ⟨[], _, rfl, ⟨_, final, Path.here _⟩, ?_⟩
      rcases exit with restart | stop
      · -- From its start the graph is run through once more.
        subst restart
        obtain ⟨first, later, whole, through, again⟩ := ih known ends
        rw [← whole]
        exact Repeated.cons ((spells_iff begins).mpr through) again
      · -- At the end nothing more is read.
        subst stop
        obtain ⟨nothing, _⟩ := rest.eq_of_no_edge
          fun _ => source_ne_of_mem_edges_repetitionGraph wf
        exact nothing ▸ Repeated.nil
  | read edge rest ih =>
    rcases (encloses_repetitionGraph wf).leave _ edge inside with own | ⟨_, silent, _⟩
    · obtain ⟨first, later, whole, ⟨final, final_mem, through⟩, again⟩ :=
        ih (wf.target_mem _ own) ends
      exact ⟨_ :: first, later, congrArg (_ :: ·) whole, ⟨final, final_mem, Path.read own through⟩,
        again⟩
    · cases silent

/-- The graph may be run through once, and then again any number of times, up to the new end. -/
theorem path_of_repeated {p : State} {first rest : List Char}
    (through : ∃ final ∈ inner.finals, inner.Path p first final)
    (again : Repeated inner.Spells rest) :
    (builder.repetitionGraph inner allowEmpty innerStart).Path p (first ++ rest)
      ((builder.adopted inner).next + 1) := by
  obtain ⟨final, ends, path⟩ := through
  -- From any final state the rest is read by running through the graph again.
  have onward : ∀ final ∈ inner.finals, (builder.repetitionGraph inner allowEmpty innerStart).Path
      final rest ((builder.adopted inner).next + 1) := by
    refine again.induct ?_ ?_
    · intro final ends
      have leaving : (⟨final, .epsilon, (builder.adopted inner).next + 1⟩ : Edge) ∈
          (builder.repetitionGraph inner allowEmpty innerStart).edges := by
        simp [mem_edges_repetitionGraph, ends]
      exact Path.silent leaving (Path.here _)
    · intro part rest once ih final ends
      have again : (⟨final, .epsilon, innerStart⟩ : Edge) ∈
          (builder.repetitionGraph inner allowEmpty innerStart).edges := by
        simp [mem_edges_repetitionGraph, ends]
      obtain ⟨last, stops, through⟩ := (spells_iff begins).mp once
      refine Path.silent again ?_
      exact (through.mono (encloses_repetitionGraph wf).more).append (ih last stops)
  exact (path.mono (encloses_repetitionGraph wf).more).append (onward final ends)

/-- A loop spells one input of the graph and then any number more, or nothing if that is allowed. -/
theorem spells_repetitionGraph :
    (builder.repetitionGraph inner allowEmpty innerStart).Spells input ↔
      allowEmpty = true ∧ input = [] ∨
        ∃ first rest, first ++ rest = input ∧ inner.Spells first ∧ Repeated inner.Spells rest := by
  obtain ⟨m, fresh⟩ : ∃ m, m = (builder.adopted inner).next := ⟨_, rfl⟩
  have starts : (builder.repetitionGraph inner allowEmpty innerStart).start = some m := fresh ▸ rfl
  have ends : (builder.repetitionGraph inner allowEmpty innerStart).finals = {m + 1} := fresh ▸ rfl
  rw [spells_iff starts, ends]
  simp only [SortedSet.mem_singleton, exists_eq_left, spells_iff begins]
  constructor
  · intro path
    -- The first step enters the graph or passes it.
    cases path with
    | silent edge rest =>
      rcases entering_of_mem_edges_repetitionGraph wf edge (Nat.le_of_eq fresh.symm)
        with same | ⟨allowed, same⟩
      · cases same
        have known := wf.start_mem innerStart begins
        exact Or.inr (repeated_of_path wf begins rest known (by rw [fresh]))
      · cases same
        obtain ⟨nothing, _⟩ := rest.eq_of_no_edge
          fun _ => source_ne_of_mem_edges_repetitionGraph wf
        exact Or.inl ⟨allowed, nothing⟩
    | read edge rest =>
      rcases entering_of_mem_edges_repetitionGraph wf edge (Nat.le_of_eq fresh.symm)
        with same | ⟨_, same⟩
      · cases same
      · cases same
  · intro spelled
    subst fresh
    rcases spelled with ⟨allowed, nothing⟩ | ⟨first, rest, whole, through, again⟩
    · subst nothing
      exact Path.silent (by simp [mem_edges_repetitionGraph, allowed]) (Path.here _)
    · subst whole
      exact Path.silent (by simp [mem_edges_repetitionGraph])
        (path_of_repeated wf begins through again)

end Repetition

end Builder

end PatternAutomata
