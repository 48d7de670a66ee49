import PatternAutomata.Proofs.Builder.Language
import PatternAutomata.Proofs.Session

/-! What combined automata accept is what their operands accept, wherever these come from. -/

namespace PatternAutomata

namespace Graph

variable {g : Graph} {input : String}

/-- An input is put together from accepted inputs when it is the join of accepted texts. -/
theorem repeated_spells_iff : Repeated g.Spells input.toList ↔
    ∃ parts : List String, (∀ part ∈ parts, g.accepts part = true) ∧ String.join parts = input := by
  simp only [accepts_iff_spells]
  -- The parts are the same on both sides, once as characters and once as texts.
  constructor
  · rintro ⟨parts, each, flat⟩
    refine ⟨parts.map String.ofList, by simpa using each, ?_⟩
    rw [← String.toList_inj, String.toList_join, List.flatMap_map, ← flat]
    simp [List.flatMap_def]
  · rintro ⟨parts, each, rfl⟩
    exact ⟨parts.map String.toList, by simpa using each, by simp [List.flatMap_def]⟩

/-- One accepted input and then any number more are the join of accepted texts, at least one. -/
theorem spells_repeated_iff :
    (∃ first rest, first ++ rest = input.toList ∧ g.Spells first ∧ Repeated g.Spells rest) ↔
      ∃ parts : List String, parts ≠ [] ∧ (∀ part ∈ parts, g.accepts part = true) ∧
        String.join parts = input := by
  constructor
  · rintro ⟨first, rest, whole, once, again⟩
    rw [← String.toList_ofList (l := rest), repeated_spells_iff] at again
    obtain ⟨parts, each, joined⟩ := again
    refine ⟨String.ofList first :: parts, by simp, ?_, ?_⟩
    · simpa [accepts_iff_spells, once] using each
    · -- The first part stands in front of the join of all others.
      rw [← String.toList_inj] at joined ⊢
      simpa [String.toList_join, ← whole] using joined
  · rintro ⟨parts, nonempty, each, rfl⟩
    obtain ⟨first, rest, rfl⟩ := List.exists_cons_of_ne_nil nonempty
    simp only [List.mem_cons, forall_eq_or_imp] at each
    refine ⟨first.toList, (String.join rest).toList, by simp [String.toList_join],
      accepts_iff_spells.mp each.1, repeated_spells_iff.mpr ⟨rest, each.2, rfl⟩⟩

end Graph

namespace Builder

open PatternAutomata.Graph

variable {builder : Builder} {left right inner : Graph} {out : Graph × Builder} {input : String}

/-- The automaton of a character accepts the text of this character only. -/
theorem accepts_of_literal {c : Char} (built : builder.literal c = .ok out) :
    out.1.accepts input = true ↔ input = String.singleton c := by
  rw [literal_eq] at built
  cases built
  -- A text is compared by its characters, of which there is one.
  rw [accepts_iff_spells, ← String.toList_inj, String.toList_singleton]
  exact spells_literalGraph

/-- Automata that are put after each other accept what both accept, one after the other. -/
theorem accepts_of_concat (wfLeft : left.WellFormed) (wfRight : right.WellFormed)
    (built : builder.concat left right = .ok out) :
    out.1.accepts input = true ↔ ∃ first second, first ++ second = input ∧
      left.accepts first = true ∧ right.accepts second = true := by
  obtain ⟨_, _, ready, rfl⟩ := (concat_eq_ok_iff wfLeft wfRight).mp built
  simp only [accepts_iff_spells, ← String.toList_inj, String.toList_append]
  rw [release, spells_concatGraph wfLeft wfRight ready]
  -- An input can be cut as a text wherever it can be cut as a list of characters.
  constructor
  · rintro ⟨first, second, whole, head, tail⟩
    exact ⟨String.ofList first, String.ofList second, by simpa using whole, by simpa using head,
      by simpa using tail⟩
  · rintro ⟨first, second, whole, head, tail⟩
    exact ⟨first.toList, second.toList, whole, head, tail⟩

/-- Automata that are put beside each other accept what either accepts. -/
theorem accepts_of_union (wfLeft : left.WellFormed) (wfRight : right.WellFormed)
    (built : builder.union left right = .ok out) :
    out.1.accepts input = true ↔ left.accepts input = true ∨ right.accepts input = true := by
  obtain ⟨_, _, ready, rfl⟩ := (union_eq_ok_iff wfLeft wfRight).mp built
  -- Both sides speak of the same paths from the starts.
  simp only [accepts_iff_spells]
  exact spells_unionGraph wfLeft wfRight ready

/-- A starred automaton accepts the joins of accepted texts. -/
theorem accepts_of_star (wf : inner.WellFormed) (built : builder.star inner = .ok out) :
    out.1.accepts input = true ↔ ∃ parts : List String,
      (∀ part ∈ parts, inner.accepts part = true) ∧ String.join parts = input := by
  obtain ⟨_, begins, rfl⟩ := (repetition_eq_ok_iff wf).mp built
  rw [← repeated_spells_iff, accepts_iff_spells, release, spells_repetitionGraph wf begins]
  -- What is repeated is nothing, or one input and then what is repeated.
  constructor
  · rintro (⟨_, nothing⟩ | ⟨first, rest, whole, once, again⟩)
    · exact nothing ▸ Repeated.nil
    · exact whole ▸ Repeated.cons once again
  · intro repeated
    simpa using repeated.nil_or_cons

/-- An automaton that is taken at least once accepts the joins of accepted texts, at least one. -/
theorem accepts_of_plus (wf : inner.WellFormed) (built : builder.plus inner = .ok out) :
    out.1.accepts input = true ↔ ∃ parts : List String, parts ≠ [] ∧
      (∀ part ∈ parts, inner.accepts part = true) ∧ String.join parts = input := by
  obtain ⟨_, begins, rfl⟩ := (repetition_eq_ok_iff wf).mp built
  -- The parts are the rounds through the inner automaton, of which there is at least one.
  rw [← spells_repeated_iff, accepts_iff_spells, release, spells_repetitionGraph wf begins]
  simp

/--
Whatever graphs a builder combines, it combines what they accept.

The graphs may come from elsewhere, so they may use any numbers, have any number of final states,
and have edges that enter their start or leave their final states.
-/
theorem accepts_combined (builder : Builder) {left right : Graph} (fromLeft : left.Reachable)
    (fromRight : right.Reachable) :
    (∀ c out, builder.literal c = .ok out → ∀ input : String,
      out.1.accepts input = true ↔ input = String.singleton c) ∧
    (∀ out, builder.concat left right = .ok out → ∀ input : String,
      out.1.accepts input = true ↔ ∃ first second, first ++ second = input ∧
        left.accepts first = true ∧ right.accepts second = true) ∧
    (∀ out, builder.union left right = .ok out → ∀ input : String,
      out.1.accepts input = true ↔ left.accepts input = true ∨ right.accepts input = true) ∧
    (∀ out, builder.star left = .ok out → ∀ input : String,
      out.1.accepts input = true ↔ ∃ parts : List String,
        (∀ part ∈ parts, left.accepts part = true) ∧ String.join parts = input) ∧
    (∀ out, builder.plus left = .ok out → ∀ input : String,
      out.1.accepts input = true ↔ ∃ parts : List String, parts ≠ [] ∧
        (∀ part ∈ parts, left.accepts part = true) ∧ String.join parts = input) := by
  -- All that the operations need of their operands is that these are well formed.
  have wfLeft := fromLeft.wellFormed
  have wfRight := fromRight.wellFormed
  refine ⟨?_, ?_, ?_, ?_, ?_⟩
  · intro c out built input
    exact accepts_of_literal built
  · intro out built input
    exact accepts_of_concat wfLeft wfRight built
  · intro out built input
    exact accepts_of_union wfLeft wfRight built
  · intro out built input
    exact accepts_of_star wfLeft built
  · intro out built input
    exact accepts_of_plus wfLeft built

/--
Two graphs with numbers above those of a new builder can be combined, so what they accept is known.

The first has a silent cycle through its start, and both have edges that leave their final states.
-/
theorem accepts_combined_looping : ∃ left right : Graph, left.Reachable ∧ right.Reachable ∧
    (∃ out, ({} : Builder).concat left right = .ok out ∧ ∀ input : String,
      out.1.accepts input = true ↔ ∃ first second, first ++ second = input ∧
        left.accepts first = true ∧ right.accepts second = true) ∧
    (∃ out, ({} : Builder).star left = .ok out ∧ ∀ input : String,
      out.1.accepts input = true ↔ ∃ parts : List String,
        (∀ part ∈ parts, left.accepts part = true) ∧ String.join parts = input) := by
  have fromLeft : Reachable _ := ⟨[.newGraph "g", .createStates "g" 2,
    .addEdge "g" ⟨0, .char 'a', 1⟩, .addEdge "g" ⟨1, .epsilon, 0⟩, .addEdge "g" ⟨0, .epsilon, 1⟩,
    .setStart "g" 0, .markFinal "g" 1], "g", rfl⟩
  have fromRight : Reachable _ := ⟨[.newBuilder "b", .literal "b" 'x' "unused",
    .literal "b" 'b' "h", .addEdge "h" ⟨3, .char 'a', 2⟩], "h", rfl⟩
  -- A silent circle in one operand, and an edge back from the end in the other.
  have combined := accepts_combined {} fromLeft fromRight
  exact ⟨_, _, fromLeft, fromRight, ⟨_, rfl, combined.2.1 _ rfl⟩, ⟨_, rfl, combined.2.2.2.1 _ rfl⟩⟩

end Builder

end PatternAutomata
