import PatternAutomata.Proofs.Builder.Trim
import PatternAutomata.Proofs.Pattern.Compilation

/-! Compiled patterns have no useless states. -/

namespace PatternAutomata

namespace Tree

/-- The automaton of a tree is trim. -/
theorem trim_of_build {tree : Tree} {builder after : Builder} {g : Graph}
    (builds : tree.build builder = .ok (g, after)) : g.Trim := by
  -- Each operation keeps its operands trim, and these are the automata of the subtrees.
  induction tree generalizing builder g after with
  | literal c =>
    rw [build, Builder.literal_eq] at builds
    cases builds
    exact Builder.trim_literalGraph builder c
  | concat left right ihLeft ihRight =>
    obtain ⟨⟨l, middle⟩, buildsLeft, builds⟩ := Outcome.bind_eq_ok.mp builds
    obtain ⟨⟨r, last⟩, buildsRight, builds⟩ := Outcome.bind_eq_ok.mp builds
    have wfLeft := (built_of_build buildsLeft).wf
    have wfRight := (built_of_build buildsRight).wf
    obtain ⟨_, _, ready, same⟩ := (Builder.concat_eq_ok_iff wfLeft wfRight).mp builds
    cases same
    exact Builder.trim_concatGraph wfLeft wfRight ready (ihLeft buildsLeft) (ihRight buildsRight)
  | union left right ihLeft ihRight =>
    obtain ⟨⟨l, middle⟩, buildsLeft, builds⟩ := Outcome.bind_eq_ok.mp builds
    obtain ⟨⟨r, last⟩, buildsRight, builds⟩ := Outcome.bind_eq_ok.mp builds
    have wfLeft := (built_of_build buildsLeft).wf
    have wfRight := (built_of_build buildsRight).wf
    obtain ⟨_, _, ready, same⟩ := (Builder.union_eq_ok_iff wfLeft wfRight).mp builds
    cases same
    exact Builder.trim_unionGraph wfLeft wfRight ready (ihLeft buildsLeft) (ihRight buildsRight)
  | star inner ih =>
    obtain ⟨⟨g, last⟩, buildsInner, builds⟩ := Outcome.bind_eq_ok.mp builds
    have wf := (built_of_build buildsInner).wf
    obtain ⟨_, begins, same⟩ := (Builder.repetition_eq_ok_iff wf).mp builds
    cases same
    exact Builder.trim_repetitionGraph wf begins (ih buildsInner)
  | plus inner ih =>
    obtain ⟨⟨g, last⟩, buildsInner, builds⟩ := Outcome.bind_eq_ok.mp builds
    have wf := (built_of_build buildsInner).wf
    obtain ⟨_, begins, same⟩ := (Builder.repetition_eq_ok_iff wf).mp builds
    cases same
    exact Builder.trim_repetitionGraph wf begins (ih buildsInner)

end Tree

/-- A compiled pattern is trim. -/
theorem trim_of_compile {pattern : String} {g : Graph} (compiled : compile pattern = .ok g) :
    g.Trim := by
  obtain ⟨tree, after, _, builds⟩ := compile_eq_ok_iff.mp compiled
  -- The automaton is built for a tree, operation by operation.
  exact Tree.trim_of_build builds

end PatternAutomata
