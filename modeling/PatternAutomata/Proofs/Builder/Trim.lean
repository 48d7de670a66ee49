import PatternAutomata.Proofs.Builder.Language
import PatternAutomata.Proofs.Graph.Trim

/-! Combining trim automata gives trim automata. -/

namespace PatternAutomata

namespace Builder

open PatternAutomata.Graph

variable {builder : Builder} {left right inner : Graph} {leftStart rightStart innerStart : State}

/-- The graph of a character is trim. -/
theorem trim_literalGraph (builder : Builder) (c : Char) : (builder.literalGraph c).Trim := by
  -- The only edge joins the start to the only final state.
  have path : (builder.literalGraph c).Path builder.next [c] (builder.next + 1) := by
    refine Path.read ?_ (Path.here _)
    simp [literalGraph]
  have start : (builder.literalGraph c).Accessible builder.next := accessible_start rfl
  have final : (builder.literalGraph c).Coaccessible (builder.next + 1) :=
    coaccessible_final (SortedSet.mem_singleton.mpr rfl)
  refine ⟨⟨_, rfl⟩, fun p member => ?_, fun p member => ?_⟩
  · rcases mem_states_framed.mp member with rfl | rfl | old
    · exact start.append path
    · exact start
    · exact absurd old (SortedSet.not_mem_empty p)
  · rcases mem_states_framed.mp member with rfl | rfl | old
    · exact final
    · exact final.prepend path
    · exact absurd old (SortedSet.not_mem_empty p)

/-- Putting trim graphs after each other gives a trim graph. -/
theorem trim_concatGraph (wfLeft : left.WellFormed) (wfRight : right.WellFormed)
    (ready : Combinable left right leftStart rightStart) (trimLeft : left.Trim)
    (trimRight : right.Trim) : (builder.concatGraph left right rightStart).Trim := by
  obtain ⟨g, whole⟩ : ∃ g, g = builder.concatGraph left right rightStart := ⟨_, rfl⟩
  have states : ∀ p, p ∈ g.states → p ∈ left.states ∨ p ∈ right.states := by
    simp [whole, concatGraph]
  have fromLeft : ∀ edge ∈ left.edges, edge ∈ g.edges :=
    whole ▸ (encloses_left_concatGraph wfRight ready).more
  have fromRight : ∀ edge ∈ right.edges, edge ∈ g.edges :=
    whole ▸ (encloses_right_concatGraph wfLeft ready).more
  have across : ∀ final ∈ left.finals, ⟨final, .epsilon, rightStart⟩ ∈ g.edges := by
    simp +contextual [whole, mem_edges_concatGraph]
  have begins : g.start = some leftStart := by simp [whole, concatGraph, ready.leftBegins]
  have finals : g.finals = right.finals := by simp [whole, concatGraph]
  rw [← whole]
  -- The left part is entered at once, and the right part by way of a final state of the left one.
  have reachLeft : ∀ p ∈ left.states, g.Accessible p := by
    intro p inside
    refine (trimLeft.accessible p inside).embed fromLeft fun start same => ?_
    cases ready.leftBegins.symm.trans same
    exact accessible_start begins
  have reachRight : ∀ p ∈ right.states, g.Accessible p := by
    intro p inside
    refine (trimRight.accessible p inside).embed fromRight fun start same => ?_
    cases ready.rightBegins.symm.trans same
    obtain ⟨input, final, ends, path⟩ :=
      trimLeft.productive leftStart (wfLeft.start_mem leftStart ready.leftBegins)
    exact (reachLeft final (wfLeft.finals_mem final ends)).append
      (Path.silent (across final ends) (Path.here _))
  -- The right part has the final states, and the left part is left for the right one.
  have endRight : ∀ p ∈ right.states, g.Coaccessible p := by
    intro p inside
    refine (trimRight.productive p inside).embed fromRight fun final ends => ?_
    exact coaccessible_final (finals ▸ ends)
  have endLeft : ∀ p ∈ left.states, g.Coaccessible p := by
    intro p inside
    refine (trimLeft.productive p inside).embed fromLeft fun final ends => ?_
    have onward := endRight rightStart (wfRight.start_mem rightStart ready.rightBegins)
    exact onward.prepend (Path.silent (across final ends) (Path.here _))
  exact ⟨⟨leftStart, begins⟩, fun p member => (states p member).elim (reachLeft p) (reachRight p),
    fun p member => (states p member).elim (endLeft p) (endRight p)⟩

/-- A part that silent edges link to the start of a graph and to a final state. -/
structure Linked (g part : Graph) (first last : State) : Prop where
  /-- The edges of the part are there. -/
  more : ∀ edge ∈ part.edges, edge ∈ g.edges
  /-- The first state is the start. -/
  begins : g.start = some first
  /-- The last state is final. -/
  ends : last ∈ g.finals
  /-- A silent edge enters the part. -/
  enter : ∀ start, part.start = some start → ⟨first, .epsilon, start⟩ ∈ g.edges
  /-- Silent edges leave the part. -/
  leave : ∀ final ∈ part.finals, ⟨final, .epsilon, last⟩ ∈ g.edges

/-- No state of a linked part is useless, and neither are the two states that it is linked to. -/
theorem Linked.useful {g part : Graph} {first last : State} (linked : Linked g part first last)
    (wf : part.WellFormed) (trim : part.Trim) {p : State}
    (inside : p = last ∨ p = first ∨ p ∈ part.states) : g.Accessible p ∧ g.Coaccessible p := by
  have start : g.Accessible first := accessible_start linked.begins
  have final : g.Coaccessible last := coaccessible_final linked.ends
  have reached : ∀ q ∈ part.states, g.Accessible q := by
    intro q member
    refine (trim.accessible q member).embed linked.more fun s begins => ?_
    exact start.append (Path.silent (linked.enter s begins) (Path.here s))
  have reaches : ∀ q ∈ part.states, g.Coaccessible q := by
    intro q member
    refine (trim.productive q member).embed linked.more fun f ends => ?_
    exact final.prepend (Path.silent (linked.leave f ends) (Path.here last))
  -- The two states are joined by a path through the part, which begins at the start of the part.
  obtain ⟨s, begins⟩ := trim.begins
  have known := wf.start_mem s begins
  obtain ⟨input, f, ends, path⟩ := trim.productive s known
  rcases inside with rfl | rfl | member
  · have through := reached f (wf.finals_mem f ends)
    exact ⟨through.append (Path.silent (linked.leave f ends) (Path.here _)), final⟩
  · exact ⟨start, (reaches s known).prepend (Path.silent (linked.enter s begins) (Path.here s))⟩
  · exact ⟨reached p member, reaches p member⟩

/-- Putting trim graphs beside each other gives a trim graph. -/
theorem trim_unionGraph (wfLeft : left.WellFormed) (wfRight : right.WellFormed)
    (ready : Combinable left right leftStart rightStart) (trimLeft : left.Trim)
    (trimRight : right.Trim) : (builder.unionGraph left right leftStart rightStart).Trim := by
  have beginsLeft := ready.leftBegins
  have beginsRight := ready.rightBegins
  have linkedLeft : Linked (builder.unionGraph left right leftStart rightStart) left
      (builder.joined left right).next ((builder.joined left right).next + 1) := by
    refine ⟨?_, rfl, SortedSet.mem_singleton.mpr rfl, ?_, ?_⟩ <;>
      simp +contextual [mem_edges_unionGraph, beginsLeft]
  have linkedRight : Linked (builder.unionGraph left right leftStart rightStart) right
      (builder.joined left right).next ((builder.joined left right).next + 1) := by
    refine ⟨?_, rfl, SortedSet.mem_singleton.mpr rfl, ?_, ?_⟩ <;>
      simp +contextual [mem_edges_unionGraph, beginsRight]
  -- Every state is one of the two new states or belongs to one of the parts.
  have useful : ∀ p ∈ (builder.unionGraph left right leftStart rightStart).states,
      (builder.unionGraph left right leftStart rightStart).Accessible p ∧
        (builder.unionGraph left right leftStart rightStart).Coaccessible p := by
    intro p member
    rw [unionGraph, mem_states_framed, mem_states_joined] at member
    rcases member with last | first | inLeft | inRight
    · exact linkedLeft.useful wfLeft trimLeft (Or.inl last)
    · exact linkedLeft.useful wfLeft trimLeft (Or.inr (Or.inl first))
    · exact linkedLeft.useful wfLeft trimLeft (Or.inr (Or.inr inLeft))
    · exact linkedRight.useful wfRight trimRight (Or.inr (Or.inr inRight))
  exact ⟨⟨_, rfl⟩, fun p member => (useful p member).1, fun p member => (useful p member).2⟩

/-- Putting a trim graph into a loop gives a trim graph. -/
theorem trim_repetitionGraph {allowEmpty : Bool} (wf : inner.WellFormed)
    (begins : inner.start = some innerStart) (trim : inner.Trim) :
    (builder.repetitionGraph inner allowEmpty innerStart).Trim := by
  have linked : Linked (builder.repetitionGraph inner allowEmpty innerStart) inner
      (builder.adopted inner).next ((builder.adopted inner).next + 1) := by
    refine ⟨?_, rfl, SortedSet.mem_singleton.mpr rfl, ?_, ?_⟩ <;>
      simp +contextual [mem_edges_repetitionGraph, begins]
  -- The new states lie on the way through the inner automaton.
  have useful : ∀ p ∈ (builder.repetitionGraph inner allowEmpty innerStart).states,
      (builder.repetitionGraph inner allowEmpty innerStart).Accessible p ∧
        (builder.repetitionGraph inner allowEmpty innerStart).Coaccessible p := by
    intro p member
    rw [repetitionGraph, mem_states_framed, mem_states_adopted] at member
    exact linked.useful wf trim member
  exact ⟨⟨_, rfl⟩, fun p member => (useful p member).1, fun p member => (useful p member).2⟩

end Builder

end PatternAutomata
