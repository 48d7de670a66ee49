import PatternAutomata.Proofs.Minimize.Reduced
import PatternAutomata.Proofs.Pattern.Trim
import PatternAutomata.Proofs.Session

/-!
Conversions succeed on all graphs that can be reached, and keep what is accepted.

No other deterministic graph for the same inputs has fewer states than one that was minimized.
-/

namespace PatternAutomata

namespace Graph

/-- A graph that can be reached is made deterministic, and accepts the same inputs as before. -/
theorem accepts_determinize {g : Graph} (reachable : g.Reachable) :
    ∃ dfa, g.determinize = .ok dfa ∧ ∀ input, dfa.accepts input = g.accepts input := by
  -- What can be reached is well formed, and more is not needed.
  obtain ⟨dfa, determined, _, _, same⟩ := determinize_ok reachable.wellFormed
  exact ⟨dfa, determined, same⟩

/-- A graph with a silent cycle and several final states can be reached and made deterministic. -/
theorem accepts_determinize_silent_cycle : ∃ g : Graph, g.Reachable ∧
    g.isNondeterministic = true ∧ g.accepts "a" = true ∧
    ∃ dfa, g.determinize = .ok dfa ∧ ∀ input, dfa.accepts input = g.accepts input := by
  have reachable : Reachable _ := ⟨[.newGraph "g", .createStates "g" 4,
    .addEdge "g" ⟨0, .epsilon, 1⟩, .addEdge "g" ⟨1, .epsilon, 0⟩, .addEdge "g" ⟨1, .char 'a', 2⟩,
    .setStart "g" 0, .markFinals "g" [2, 3]], "g", rfl⟩
  -- The two silent edges lead in a circle, and one final state is not reached.
  exact ⟨_, reachable, by decide, by cbv, accepts_determinize reachable⟩

/-- A graph that can be reached is minimized, and accepts the same inputs as before. -/
theorem accepts_minimize {g : Graph} (reachable : g.Reachable) :
    ∃ q, g.minimize = .ok q ∧ ∀ input, q.accepts input = g.accepts input := by
  -- What can be reached is well formed, and more is not needed.
  obtain ⟨q, minimized, _, _, same⟩ := minimize_ok reachable.wellFormed
  exact ⟨q, minimized, same⟩

/-- A partial deterministic graph with a dead state can be reached and minimized. -/
theorem accepts_minimize_partial : ∃ g : Graph, g.Reachable ∧
    g.isNondeterministic = false ∧ g.accepts "a" = true ∧
    ∃ q, g.minimize = .ok q ∧ ∀ input, q.accepts input = g.accepts input := by
  have reachable : Reachable _ := ⟨[.newGraph "g", .createStates "g" 4,
    .addEdge "g" ⟨0, .char 'a', 1⟩, .addEdge "g" ⟨0, .char 'b', 2⟩, .addEdge "g" ⟨3, .char 'a', 1⟩,
    .setStart "g" 0, .markFinal "g" 1], "g", rfl⟩
  -- Most states have no edge for a character, and one state is not reached.
  exact ⟨_, reachable, by decide, by cbv, accepts_minimize reachable⟩

/-- A graph that could take the place of another one, reading without a choice. -/
structure Replaces (h g : Graph) : Prop where
  /-- The graph can be reached. -/
  reachable : h.Reachable
  /-- The graph has a start. -/
  begins : ∃ start, h.start = some start
  /-- The graph leaves no choice, though edges may be missing. -/
  single : h.isNondeterministic = false
  /-- The graph accepts the same inputs. -/
  same : ∀ input, h.accepts input = g.accepts input

/--
Minimizing a graph without useless states gives one of the smallest graphs that could replace it.

There are no useless states in compiled patterns, and none when these are made deterministic.
-/
theorem minimize_least :
    (∀ g : Graph, g.Reachable → g.Trim → ∃ q, g.minimize = .ok q ∧ q.Replaces g ∧
      ∀ h : Graph, h.Replaces g → q.states.size ≤ h.states.size) ∧
    (∀ pattern g, compile pattern = .ok g → g.Reachable ∧ g.Trim ∧
      ∃ dfa, g.determinize = .ok dfa ∧ dfa.Reachable ∧ dfa.Trim) := by
  constructor
  · intro g reachable trim
    obtain ⟨q, minimized, reduced⟩ := trim.minimize reachable.wellFormed
    obtain ⟨_, again, _, _, same⟩ := minimize_ok reachable.wellFormed
    cases minimized.symm.trans again
    have reachable' : q.Reachable := reachable.convert .minimize minimized
    have replaces : q.Replaces g :=
      ⟨reachable', reduced.trim.begins, deterministic_iff.mp reduced.det, same⟩
    refine ⟨q, minimized, replaces, fun h other => ?_⟩
    obtain ⟨start, begins⟩ := other.begins
    -- The states of the result have different futures, and each is found in the other graph.
    exact reduced.size_le other.reachable.wellFormed (deterministic_iff.mpr other.single) begins
      fun input => (other.same input).trans (same input).symm
  · intro pattern g compiled
    have trim := trim_of_compile compiled
    have reachable := reachable_of_compile compiled
    obtain ⟨dfa, determined, _, _, trim', _⟩ := trim.determinize reachable.wellFormed
    have reachable' : dfa.Reachable := reachable.convert .determinize determined
    exact ⟨reachable, trim, dfa, determined, reachable', trim'⟩

/-- No deterministic graph for the inputs of a certain pattern has less than three states. -/
theorem minimize_least_starred : ∃ g q : Graph, compile "ab*a" = .ok g ∧ g.Reachable ∧ g.Trim ∧
    g.minimize = .ok q ∧ q.Replaces g ∧ ∀ h : Graph, h.Replaces g → 3 ≤ h.states.size := by
  obtain ⟨g, compiled⟩ : ∃ g, compile "ab*a" = .ok g := ⟨_, by cbv⟩
  -- Three states are what minimizing leaves, and no graph that replaces it has fewer.
  have size : (compile "ab*a" >>= minimize).map (fun q => q.states.size) = .ok 3 := by
    decide +kernel
  obtain ⟨reachable, trim, _⟩ := minimize_least.2 "ab*a" g compiled
  obtain ⟨q, minimized, replaces, least⟩ := minimize_least.1 g reachable trim
  have three : q.states.size = 3 := by simpa [compiled, minimized, Except.map] using size
  exact ⟨g, q, compiled, reachable, trim, minimized, replaces, fun h other => three ▸ least h other⟩

end Graph

end PatternAutomata
