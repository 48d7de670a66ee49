import PatternAutomata.Proofs.Graph.Run
import PatternAutomata.Proofs.Pattern.Compilation
import PatternAutomata.Proofs.Pattern.Parsed

/-! Which patterns compile, and what their automata accept. -/

namespace PatternAutomata

/-- A compiled pattern has exactly one tree, and its automaton accepts what this tree describes. -/
theorem accepts_compile_iff {pattern : String} {g : Graph} (compiled : compile pattern = .ok g) :
    ∃ tree, (∀ other, Derives .pattern pattern.toList other ↔ other = tree) ∧
      ∀ input : String, g.accepts input = true ↔ tree.Matches input.toList := by
  obtain ⟨tree, after, parsed, builds⟩ := compile_eq_ok_iff.mp compiled
  obtain ⟨_, _, again, built⟩ := tree.build_ok {}
  rw [builds] at again
  cases again
  refine ⟨tree, fun other => ?_, fun input => ?_⟩
  · -- Parsing gives one tree only.
    rw [← Tree.parse_eq_ok_iff, parsed, Except.ok.injEq, eq_comm]
  · rw [Graph.accepts_iff_spells, built.spells]

/-- A pattern with a starred group and concatenations compiles, so its language is known. -/
theorem accepts_compile_iff_starred_group : ∃ g, compile "(a|b)*c" = .ok g ∧
    ∃ tree, (∀ other, Derives .pattern "(a|b)*c".toList other ↔ other = tree) ∧
      ∀ input : String, g.accepts input = true ↔ tree.Matches input.toList :=
  ⟨_, rfl, accepts_compile_iff rfl⟩

/--
A pattern compiles to the graph that a new builder makes of its only tree, numbers included.

The tree is built with both subtrees before each operation, and groups are not part of it.
-/
theorem compile_eq_ok_iff_build {pattern : String} {g : Graph} :
    compile pattern = .ok g ↔
      ∃ tree, (∀ other, Derives .pattern pattern.toList other ↔ other = tree) ∧
        ∃ after, tree.build {} = .ok (g, after) := by
  constructor
  · intro compiled
    obtain ⟨tree, after, parsed, builds⟩ := compile_eq_ok_iff.mp compiled
    refine ⟨tree, fun other => ?_, after, builds⟩
    -- What is derived is what is parsed, and there is one result of that.
    rw [← Tree.parse_eq_ok_iff, parsed, Except.ok.injEq, eq_comm]
  · intro built
    obtain ⟨tree, derived, after, builds⟩ := built
    have derives : Derives .pattern pattern.toList tree := (derived tree).mpr rfl
    exact compile_eq_ok_iff.mpr ⟨tree, after, Tree.parse_eq_ok_iff.mpr derives, builds⟩

/-- The patterns that compile are exactly those that the grammar derives. -/
theorem exists_compile_iff_derives (pattern : String) :
    (∃ g, compile pattern = .ok g) ↔ ∃ tree, Derives .pattern pattern.toList tree := by
  constructor
  · intro compiles
    obtain ⟨g, compiled⟩ := compiles
    obtain ⟨tree, _, parsed, _⟩ := compile_eq_ok_iff.mp compiled
    exact ⟨tree, Tree.parse_eq_ok_iff.mp parsed⟩
  · intro derived
    obtain ⟨tree, derives⟩ := derived
    -- Every tree has an automaton.
    obtain ⟨g, after, builds, _⟩ := tree.build_ok {}
    exact ⟨g, compile_eq_ok_iff.mpr ⟨tree, after, Tree.parse_eq_ok_iff.mpr derives, builds⟩⟩

end PatternAutomata
