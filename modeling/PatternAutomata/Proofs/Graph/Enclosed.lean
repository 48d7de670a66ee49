import PatternAutomata.Proofs.Graph.Run

/-! Parts of a graph that paths leave only at certain exits, and parts that they never leave. -/

namespace PatternAutomata

namespace Graph

/-- Nothing is read from a state that no edge leaves, and no other state is reached. -/
theorem Path.eq_of_no_edge {g : Graph} {p r : State} {input : List Char} (path : g.Path p input r)
    (stuck : ∀ edge ∈ g.edges, edge.source ≠ p) : input = [] ∧ r = p := by
  -- The first step of any longer path would be an edge that leaves the state.
  cases path with
  | here => exact ⟨rfl, rfl⟩
  | silent edge _ => exact absurd rfl (stuck _ edge)
  | read edge _ => exact absurd rfl (stuck _ edge)

/-- A graph has another one as a part, which paths leave only silently and from its final states. -/
structure Encloses (g part : Graph) (Exit : State → Prop) : Prop where
  /-- The edges of the part are there. -/
  more : ∀ edge ∈ part.edges, edge ∈ g.edges
  /-- Any other edge out of the part leads from a final state of it to an exit. -/
  leave : ∀ edge ∈ g.edges, edge.source ∈ part.states →
    edge ∈ part.edges ∨ edge.source ∈ part.finals ∧ edge.symbol = .epsilon ∧ Exit edge.target

namespace Encloses

variable {g part : Graph} {Exit : State → Prop} {p r : State} {input : List Char}

/-- A path that begins in a part stays in it, or reads an input of it up to an exit. -/
theorem stays_or_leaves (encloses : g.Encloses part Exit) (wf : part.WellFormed)
    (inside : p ∈ part.states) (path : g.Path p input r) :
    part.Path p input r ∨ ∃ first second final exit, first ++ second = input ∧
      final ∈ part.finals ∧ part.Path p first final ∧ Exit exit ∧ g.Path exit second r := by
  induction path with
  | here p => exact Or.inl (Path.here p)
  | silent edge rest ih =>
    -- The first edge belongs to the part, or the part is left at once.
    rcases encloses.leave _ edge inside with own | away
    · rcases ih (wf.target_mem _ own) with stays | leaves
      · exact Or.inl (Path.silent own stays)
      · obtain ⟨first, second, final, exit, whole, ends, path, out, onward⟩ := leaves
        exact Or.inr ⟨first, second, final, exit, whole, ends, Path.silent own path, out, onward⟩
    · obtain ⟨ends, _, out⟩ := away
      exact Or.inr ⟨[], _, _, _, rfl, ends, Path.here _, out, rest⟩
  | read edge rest ih =>
    -- No exit is reached by reading, so the edge belongs to the part.
    rcases encloses.leave _ edge inside with own | away
    · rcases ih (wf.target_mem _ own) with stays | leaves
      · exact Or.inl (Path.read own stays)
      · obtain ⟨first, second, final, exit, whole, ends, path, out, onward⟩ := leaves
        exact Or.inr ⟨_ :: first, second, final, exit, congrArg (_ :: ·) whole, ends,
          Path.read own path, out, onward⟩
    · obtain ⟨_, silent, _⟩ := away
      cases silent

/-- A path that begins in a part without exits stays in it. -/
theorem stays (encloses : g.Encloses part fun _ => False) (wf : part.WellFormed)
    (inside : p ∈ part.states) (path : g.Path p input r) : part.Path p input r := by
  -- There is no way out of the part by which the path could leave.
  rcases encloses.stays_or_leaves wf inside path with stays | leaves
  · exact stays
  · obtain ⟨_, _, _, _, _, _, _, out, _⟩ := leaves
    exact out.elim

/-- A part whose only exit is a dead end is left there with the inputs that it reads to the end. -/
theorem path_iff_of_sink {sink : State} (encloses : g.Encloses part (· = sink))
    (wf : part.WellFormed) (inside : p ∈ part.states) (outside : sink ∉ part.states)
    (stuck : ∀ edge ∈ g.edges, edge.source ≠ sink)
    (linked : ∀ final ∈ part.finals, ⟨final, .epsilon, sink⟩ ∈ g.edges) :
    g.Path p input sink ↔ ∃ final ∈ part.finals, part.Path p input final := by
  constructor
  · intro path
    rcases encloses.stays_or_leaves wf inside path with stays | leaves
    · exact absurd (wf.mem_of_path stays inside) outside
    · obtain ⟨first, second, final, _, whole, ends, before, out, after⟩ := leaves
      subst out
      -- Nothing is read after the dead end has been reached.
      obtain ⟨nothing, _⟩ := after.eq_of_no_edge stuck
      rw [← whole, nothing, List.append_nil]
      exact ⟨final, ends, before⟩
  · intro ended
    obtain ⟨final, ends, path⟩ := ended
    have leaving : g.Path final [] sink := Path.silent (linked final ends) (Path.here sink)
    simpa using (path.mono encloses.more).append leaving

section NoExit

variable (encloses : g.Encloses part fun _ => False) (wf : part.WellFormed)

include encloses wf

/-- Without exits the same paths begin in a part as in the whole. -/
theorem path_iff (inside : p ∈ part.states) : g.Path p input r ↔ part.Path p input r :=
  ⟨encloses.stays wf inside, fun path => path.mono encloses.more⟩

/-- Without exits nothing else is reached silently from states of a part. -/
theorem closure_eq {states : SortedSet State} (inside : ∀ p ∈ states, p ∈ part.states) :
    g.closure states = part.closure states := by
  ext q
  rw [mem_closure, mem_closure]
  -- Silent paths from each of the states are paths of the part.
  refine exists_congr fun p => and_congr_right fun member => ?_
  exact encloses.path_iff wf (inside p member)

omit wf in
/-- Without exits a character leads nowhere else from states of a part. -/
theorem move_eq {states : SortedSet State} (inside : ∀ p ∈ states, p ∈ part.states) (c : Char) :
    g.move states c = part.move states c := by
  ext q
  rw [mem_move, mem_move]
  -- An edge from inside belongs to the part, since none leads out.
  refine exists_congr fun p => and_congr_right fun member => ?_
  constructor
  · intro edge
    rcases encloses.leave _ edge (inside p member) with own | ⟨_, _, exit⟩
    · exact own
    · exact exit.elim
  · exact encloses.more _

/-- A part without exits that has the start and the final states decides what is accepted. -/
theorem accepts_eq (start : g.start = part.start) (finals : g.finals = part.finals)
    (input : String) : g.accepts input = part.accepts input := by
  rw [Bool.eq_iff_iff, accepts_iff_spells, accepts_iff_spells, Spells, Spells, start, finals]
  -- The start belongs to the part, so the paths from it are those of the part.
  refine exists_congr fun s => exists_congr fun final => and_congr_right fun begins => ?_
  refine and_congr_right fun _ => ?_
  exact encloses.path_iff wf (wf.start_mem s begins)

end NoExit

end Encloses

end Graph

end PatternAutomata
