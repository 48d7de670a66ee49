import PatternAutomata.Pattern.Tree
import PatternAutomata.Proofs.Builder.Language

/-! Every tree has an automaton, and it spells exactly the inputs that the tree describes. -/

namespace PatternAutomata

namespace Tree

variable {tree left right inner : Tree} {input : List Char}

/-- A character describes itself only. -/
theorem matches_literal_iff {c : Char} : (literal c).Matches input ↔ input = [c] := by
  -- No other input is described by the one rule for characters.
  constructor
  · intro described
    cases described
    rfl
  · intro same
    rw [same]
    exact Matches.literal c

/-- A concatenation describes an input of its left side and then one of its right side. -/
theorem matches_concat_iff : (concat left right).Matches input ↔
    ∃ first second, first ++ second = input ∧ left.Matches first ∧ right.Matches second := by
  -- Only one rule describes inputs of a concatenation.
  constructor
  · intro described
    cases described with
    | concat head tail => exact ⟨_, _, rfl, head, tail⟩
  · intro parts
    obtain ⟨first, second, whole, head, tail⟩ := parts
    rw [← whole]
    exact Matches.concat head tail

/-- A union describes the inputs of both sides. -/
theorem matches_union_iff :
    (union left right).Matches input ↔ left.Matches input ∨ right.Matches input := by
  -- There is one rule for each side.
  constructor
  · intro described
    cases described with
    | unionLeft side => exact Or.inl side
    | unionRight side => exact Or.inr side
  · intro sides
    rcases sides with side | side
    · exact Matches.unionLeft side
    · exact Matches.unionRight side

/-- A starred tree describes what is put together from inputs of the tree inside. -/
theorem matches_star_iff : (star inner).Matches input ↔ Repeated inner.Matches input := by
  constructor
  · intro described
    -- The induction is on how the input is described, so the star is kept as an equation.
    generalize whole : star inner = tree at described
    induction described with
    | starNil => exact Repeated.nil
    | starCons head tail _ ih =>
      cases whole
      exact Repeated.cons head (ih rfl)
    | _ => cases whole
  · intro repeated
    exact repeated.induct Matches.starNil fun _ _ head tail => Matches.starCons head tail

/-- A tree that is taken once or more often describes one input and then any number more. -/
theorem matches_plus_iff : (plus inner).Matches input ↔
    ∃ first rest, first ++ rest = input ∧ inner.Matches first ∧
      Repeated inner.Matches rest := by
  -- A plus describes one round, and then what a star describes.
  constructor
  · intro described
    cases described with
    | plus head tail => exact ⟨_, _, rfl, head, matches_star_iff.mp tail⟩
  · intro parts
    obtain ⟨first, rest, whole, head, tail⟩ := parts
    rw [← whole]
    exact Matches.plus head (matches_star_iff.mpr tail)

/-- A graph that was built for a tree from one builder on, which left another builder behind. -/
structure Built (tree : Tree) (builder : Builder) (g : Graph) (after : Builder) : Prop where
  /-- The graph is well formed. -/
  wf : g.WellFormed
  /-- The graph has a start. -/
  begins : ∃ start, g.start = some start
  /-- The states are new to the earlier builder. -/
  lower : ∀ state ∈ g.states, builder.next ≤ state
  /-- The states are no longer new to the later builder. -/
  upper : ∀ state ∈ g.states, state < after.next
  /-- The builder has moved on. -/
  onward : builder.next ≤ after.next
  /-- The graph spells what the tree describes. -/
  spells : ∀ input, g.Spells input ↔ tree.Matches input

namespace Built

variable {builder middle after : Builder} {l r g : Graph}

/-- What is released from a builder has numbers below those that the builder goes on with. -/
theorem of_release (out : Graph) (wf : out.WellFormed) (begins : ∃ start, out.start = some start)
    (lower : ∀ state ∈ out.states, builder.next ≤ state) (onward : builder.next ≤ after.next)
    (spells : ∀ input, out.Spells input ↔ tree.Matches input) :
    Built tree builder (after.release out).1 (after.release out).2 where
  -- Handing out a graph changes the builder only.
  wf := wf
  begins := begins
  lower := lower
  upper state member := Nat.lt_of_lt_of_le (wf.states_lt state member) (Nat.le_max_right ..)
  onward := Nat.le_trans onward (Nat.le_max_left ..)
  spells := spells

/-- A character has an automaton. -/
theorem literal (builder : Builder) (c : Char) :
    ∃ g after, builder.literal c = .ok (g, after) ∧ Built (.literal c) builder g after := by
  refine ⟨_, _, Builder.literal_eq builder c, ?_⟩
  refine of_release (builder.literalGraph c) (Builder.wellFormed_literalGraph builder c) ⟨_, rfl⟩
    (fun state member => (List.mem_range'_1.mp (Builder.mem_states_literalGraph.mp member)).1)
    (Nat.le_refl _) fun input => ?_
  -- The only path reads the character between the two states.
  rw [Builder.spells_literalGraph, matches_literal_iff]

/-- Automata that were built one after the other can be combined. -/
theorem combinable (first : Built left builder l middle) (second : Built right middle r after) :
    ∃ leftStart rightStart, Builder.Combinable l r leftStart rightStart := by
  obtain ⟨leftStart, leftBegins⟩ := first.begins
  obtain ⟨rightStart, rightBegins⟩ := second.begins
  refine ⟨leftStart, rightStart, leftBegins, rightBegins, fun state member shared => ?_⟩
  -- The later automaton has larger numbers.
  exact absurd (first.upper state member) (Nat.not_lt.mpr (second.lower state shared))

/-- Automata that were built one after the other can be put after each other. -/
theorem concat (first : Built left builder l middle) (second : Built right middle r after) :
    ∃ g last, after.concat l r = .ok (g, last) ∧ Built (.concat left right) builder g last := by
  obtain ⟨leftStart, rightStart, ready⟩ := first.combinable second
  refine ⟨_, _, Builder.concat_ok first.wf second.wf ready, ?_⟩
  refine of_release (after.concatGraph l r rightStart)
    (Builder.wellFormed_concatGraph first.wf second.wf ready) ⟨leftStart, ready.leftBegins⟩ ?_
    (Nat.le_trans first.onward second.onward) ?_
  · -- No state is added to those of the two graphs.
    intro state member
    rcases Builder.mem_states_concatGraph.mp member with old | later
    · exact first.lower state old
    · exact Nat.le_trans first.onward (second.lower state later)
  · intro input
    rw [Builder.spells_concatGraph first.wf second.wf ready, matches_concat_iff]
    simp only [first.spells, second.spells]

/-- Automata that were built one after the other can be put beside each other. -/
theorem union (first : Built left builder l middle) (second : Built right middle r after) :
    ∃ g last, after.union l r = .ok (g, last) ∧ Built (.union left right) builder g last := by
  obtain ⟨leftStart, rightStart, ready⟩ := first.combinable second
  refine ⟨_, _, Builder.union_ok first.wf second.wf ready, ?_⟩
  -- States are those of both sides, and new ones behind the numbers of both.
  refine of_release (after.unionGraph l r leftStart rightStart)
    (Builder.wellFormed_unionGraph first.wf second.wf ready) ⟨_, rfl⟩ ?_
    (Nat.le_trans first.onward second.onward) ?_
  · intro state member
    rcases Builder.mem_states_unionGraph.mp member with (old | later) | new
    · exact first.lower state old
    · exact Nat.le_trans first.onward (second.lower state later)
    · have reached := Nat.le_trans (after.next_le_joined l r) (List.mem_range'_1.mp new).1
      exact Nat.le_trans (Nat.le_trans first.onward second.onward) reached
  · intro input
    rw [Builder.spells_unionGraph first.wf second.wf ready, matches_union_iff, first.spells,
      second.spells]

/-- An automaton can be put into a loop. -/
theorem repetition (built : Built inner builder g after) (allowEmpty : Bool)
    (describes : ∀ input, tree.Matches input ↔ allowEmpty = true ∧ input = [] ∨
      ∃ first rest, first ++ rest = input ∧ inner.Matches first ∧ Repeated inner.Matches rest) :
    ∃ out last, after.repetition g allowEmpty = .ok (out, last) ∧ Built tree builder out last := by
  obtain ⟨start, begins⟩ := built.begins
  refine ⟨_, _, Builder.repetition_ok built.wf begins allowEmpty, ?_⟩
  -- States are those of the inner automaton, and new ones behind its numbers.
  refine of_release (after.repetitionGraph g allowEmpty start)
    (Builder.wellFormed_repetitionGraph built.wf begins) ⟨_, rfl⟩ ?_ built.onward ?_
  · intro state member
    rcases Builder.mem_states_repetitionGraph.mp member with old | new
    · exact built.lower state old
    · have reached := Nat.le_trans (after.next_le_adopted g) (List.mem_range'_1.mp new).1
      exact Nat.le_trans built.onward reached
  · intro input
    have same : g.Spells = inner.Matches := funext fun input => propext (built.spells input)
    rw [Builder.spells_repetitionGraph built.wf begins, describes, same]

/-- A star may leave its tree out. -/
theorem star (built : Built inner builder g after) :
    ∃ out last, after.star g = .ok (out, last) ∧ Built (.star inner) builder out last := by
  -- Taking a tree any number of times is leaving it out or taking it at least once.
  refine built.repetition true fun input => ?_
  rw [matches_star_iff]
  constructor
  · intro repeated
    rcases repeated.nil_or_cons with nothing | parts
    · exact Or.inl ⟨rfl, nothing⟩
    · exact Or.inr parts
  · intro cases
    rcases cases with ⟨_, nothing⟩ | ⟨first, rest, whole, once, again⟩
    · exact nothing ▸ Repeated.nil
    · exact whole ▸ Repeated.cons once again

/-- A plus takes its tree at least once. -/
theorem plus (built : Built inner builder g after) :
    ∃ out last, after.plus g = .ok (out, last) ∧ Built (.plus inner) builder out last := by
  refine built.repetition false fun input => ?_
  -- Without the edge that passes by there is at least one round.
  rw [matches_plus_iff]
  simp

end Built

/-- Every tree has an automaton. -/
theorem build_ok (tree : Tree) (builder : Builder) :
    ∃ g after, tree.build builder = .ok (g, after) ∧ Built tree builder g after := by
  induction tree generalizing builder with
  | literal c => exact Built.literal builder c
  | concat left right ihLeft ihRight =>
    -- The right side goes on where the left side has left off.
    obtain ⟨l, middle, buildsLeft, first⟩ := ihLeft builder
    obtain ⟨r, after, buildsRight, second⟩ := ihRight middle
    obtain ⟨g, last, combined, built⟩ := first.concat second
    refine ⟨g, last, ?_, built⟩
    refine Outcome.bind_ok buildsLeft ?_
    exact Outcome.bind_ok buildsRight combined
  | union left right ihLeft ihRight =>
    obtain ⟨l, middle, buildsLeft, first⟩ := ihLeft builder
    obtain ⟨r, after, buildsRight, second⟩ := ihRight middle
    obtain ⟨g, last, combined, built⟩ := first.union second
    refine ⟨g, last, ?_, built⟩
    refine Outcome.bind_ok buildsLeft ?_
    exact Outcome.bind_ok buildsRight combined
  | star inner ih =>
    obtain ⟨g, after, builds, built⟩ := ih builder
    obtain ⟨out, last, looped, built⟩ := built.star
    exact ⟨out, last, Outcome.bind_ok builds looped, built⟩
  | plus inner ih =>
    obtain ⟨g, after, builds, built⟩ := ih builder
    obtain ⟨out, last, looped, built⟩ := built.plus
    exact ⟨out, last, Outcome.bind_ok builds looped, built⟩

/-- What is known of the automaton of a tree holds of whatever has been built for the tree. -/
theorem built_of_build {tree : Tree} {builder after : Builder} {g : Graph}
    (builds : tree.build builder = .ok (g, after)) : Built tree builder g after := by
  -- Building always succeeds, and gives one result only.
  obtain ⟨_, _, again, built⟩ := tree.build_ok builder
  rw [builds] at again
  cases again
  exact built

end Tree

end PatternAutomata
